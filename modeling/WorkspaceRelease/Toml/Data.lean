import WorkspaceRelease.Toml.Document

/-!
What a document says, without how it is written: maps, lists and scalars. Two documents with the
same data differ only in their layout.
-/

namespace WorkspaceRelease.Toml

inductive Data where
  | scalar (s : Scalar)
  | list (items : List Data)
  | map (fields : List (Text × Data))
  deriving Repr

namespace Data

def string (s : Text) : Data := .scalar (.string s)

def get? (name : Text) : Data → Option Data
  | .map fields => fields.lookup name
  | _ => none

end Data

mutual

def Node.data : Node → Data
  | .scalar s _ _ => .scalar s
  | .array items _ _ _ => .list (itemData items)
  | .table _ es => .map (entryData es)
  | .tables ts => .list (itemData ts)

def itemData : List Node → List Data
  | [] => []
  | n :: ns => n.data :: itemData ns

def entryData : List (Key × Node) → List (Text × Data)
  | [] => []
  | (k, n) :: es => (k.name, n.data) :: entryData es

end

theorem itemData_eq_map (ns : List Node) : itemData ns = ns.map Node.data := by
  induction ns with
  | nil => rfl
  | cons n ns ih => simp [itemData, ih]

theorem entryData_eq_map (es : List Entry) :
    entryData es = es.map fun e => (e.1.name, e.2.data) := by
  induction es with
  | nil => rfl
  | cons e es ih => simp [entryData, ih]

theorem lookup_entryData (name : Text) (es : List Entry) :
    (entryData es).lookup name = (Entries.find? name es).map Node.data := by
  induction es with
  | nil => rfl
  | cons e es ih =>
    by_cases h : e.1.name = name
    · simp [entryData, Entries.find?, h]
    · have hn : (name == e.1.name) = false := beq_eq_false_iff_ne.2 (Ne.symm h)
      simp [entryData, Entries.find?, List.lookup_cons, h, hn, ih]

def Document.data (d : Document) : Data := .map (entryData d.entries)

end WorkspaceRelease.Toml

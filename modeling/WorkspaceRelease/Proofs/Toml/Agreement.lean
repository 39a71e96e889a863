import WorkspaceRelease.Toml.Document

/-!
What a document says at each path, whatever the order and the layout in which it says it.
-/

namespace WorkspaceRelease.Toml

inductive Step where
  | key (name : Text)
  | item (i : Nat)
  deriving DecidableEq, Repr

/-- What a node is, without what stands below it. The text of a scalar is left out unless it counts. -/
inductive Shape where
  | scalar (data : Scalar) (written : Option Text)
  | list (length : Nat)
  | table
  deriving DecidableEq, Repr

namespace Node

def child? : Node → Step → Option Node
  | .table _ es, .key name => Entries.find? name es
  | .array items _ _ _, .item i => items[i]?
  | .tables ts, .item i => ts[i]?
  | _, _ => none

def at? (n : Node) : List Step → Option Node
  | [] => some n
  | s :: path => (n.child? s).bind fun m => m.at? path

theorem at?_key_cons (n : Node) (name : Text) (path : List Step) :
    n.at? (.key name :: path) = (n.get? name).bind fun m => m.at? path := by
  cases n <;> rfl

theorem at?_key (n : Node) (name : Text) : n.at? [.key name] = n.get? name := by
  rw [at?_key_cons]
  cases n.get? name <;> rfl

def shape (exact : Bool) : Node → Shape
  | .scalar data written _ => .scalar data (if exact then some written else none)
  | .array items _ _ _ => .list items.length
  | .table _ _ => .table
  | .tables ts => .list ts.length

/-- Two nodes have the same keys and values below them and, if it is to be exact, the same texts of
scalars. -/
def Agree (exact : Bool) (n m : Node) : Prop :=
  ∀ path, (n.at? path).map (shape exact) = (m.at? path).map (shape exact)

namespace Agree

variable {exact : Bool} {n m : Node}

theorem refl (n : Node) : Agree exact n n := fun _ => rfl

theorem symm (h : Agree exact n m) : Agree exact m n := fun path => (h path).symm

theorem shape_eq (h : Agree exact n m) : n.shape exact = m.shape exact :=
  Option.some.inj (h [])

theorem child (h : Agree exact n m) {s : Step} {a : Node} (ha : n.child? s = some a) :
    ∃ b, m.child? s = some b ∧ Agree exact a b := by
  cases hb : m.child? s with
  | none =>
    have hpath := h [s]
    simp [at?, ha, hb] at hpath
  | some b =>
    refine ⟨b, rfl, fun path => ?_⟩
    have hpath := h (s :: path)
    simpa [at?, ha, hb] using hpath

theorem at? (h : Agree exact n m) {path : List Step} {a : Node} (ha : n.at? path = some a) :
    ∃ b, m.at? path = some b ∧ Agree exact a b := by
  induction path generalizing n m with
  | nil =>
    obtain rfl := Option.some.inj ha
    exact ⟨m, rfl, h⟩
  | cons step path ih =>
    obtain ⟨c, hc, ha⟩ := Option.bind_eq_some_iff.mp ha
    obtain ⟨d, hd, hcd⟩ := h.child hc
    obtain ⟨b, hb, hab⟩ := ih hcd ha
    exact ⟨b, by rw [Node.at?, hd, Option.bind_some, hb], hab⟩

theorem loose (h : Agree true n m) : Agree false n m := by
  have hshape : ∀ o : Node, o.shape false = match o.shape true with
    | .scalar data _ => .scalar data none
    | s => s := by
    intro o
    cases o <;> rfl
  intro path
  have hpath := h path
  cases ha : n.at? path with
  | none =>
    cases hb : m.at? path with
    | none => rfl
    | some b => simp [ha, hb] at hpath
  | some a =>
    cases hb : m.at? path with
    | none => simp [ha, hb] at hpath
    | some b =>
      rw [ha, hb, Option.map_some, Option.map_some, Option.some.injEq] at hpath
      rw [Option.map_some, Option.map_some, hshape a, hshape b, hpath]

theorem table {form : TableForm} {es : List Entry} (h : Agree exact (.table form es) m) :
    ∃ form' es', m = .table form' es' := by
  have hs := h.shape_eq
  cases m with
  | table form' es' => exact ⟨form', es', rfl⟩
  | scalar | array | tables => simp [shape] at hs

theorem scalar {data : Scalar} {written : Text} {pad : Padding} (h : Agree exact (.scalar data written pad) m) :
    ∃ written' pad', m = .scalar data written' pad' ∧ (exact = true → written' = written) := by
  have hs := h.shape_eq
  cases m with
  | scalar data' written' pad' =>
    simp only [shape, Shape.scalar.injEq] at hs
    obtain ⟨rfl, hw⟩ := hs
    refine ⟨written', pad', rfl, ?_⟩
    rintro rfl
    simpa using hw.symm
  | table | array | tables => simp [shape] at hs

theorem find? {form form' : TableForm} {es es' : List Entry} (h : Agree exact (.table form es) (.table form' es'))
    {name : Text} {a : Node} (ha : Entries.find? name es = some a) :
    ∃ b, Entries.find? name es' = some b ∧ Agree exact a b :=
  h.child (s := .key name) ha

theorem get? (h : Agree exact n m) {name : Text} {a : Node} (ha : n.get? name = some a) :
    ∃ b, m.get? name = some b ∧ Agree exact a b := by
  cases n with
  | table form es =>
    obtain ⟨form', es', rfl⟩ := h.table
    exact h.find? ha
  | scalar | array | tables => exact nomatch ha

theorem string? (h : Agree exact n m) {s : Text} (hs : n.string? = some s) : m.string? = some s := by
  match n, hs with
  | .scalar (.string _) _ _, rfl =>
    obtain ⟨written, pad, rfl, -⟩ := h.scalar
    rfl

end Agree

end Node

namespace Document

def root (d : Document) : Node := .table .implicit d.entries

def Agree (exact : Bool) (d e : Document) : Prop := Node.Agree exact d.root e.root

/-- The text of a document reads back to the same keys and values. -/
def Keeps (d : Document) : Prop := ∃ e, Document.read d.render = .ok e ∧ Agree false d e

/-- The text of a document reads back to the same keys and values, each written as before, and is the
text of what was read. -/
def KeepsText (d : Document) : Prop :=
  ∃ e, Document.read d.render = .ok e ∧ Agree true d e ∧ e.render = d.render

end Document

end WorkspaceRelease.Toml

import WorkspaceRelease.Toml.Key
import WorkspaceRelease.Toml.Scalar

/-!
The tree of a document with its layout. A table is one notion however it was written; its form says
whether by braces, by dotted keys, by a header, or only as the parent of headers.
-/

namespace WorkspaceRelease.Toml

inductive TableForm where
  /-- Braces, with the text after the opening one that no entry owns. -/
  | inline (preamble : Text) (pad : Padding)
  /-- Dotted keys within braces. -/
  | inlineDotted
  | dotted
  | implicit
  /-- A header, with its place among the headers of the document. -/
  | headed (place : Nat) (pad : Padding)
  deriving DecidableEq, Repr

inductive Node where
  | scalar (data : Scalar) (written : Text) (pad : Padding)
  | array (items : List Node) (trailingComma : Bool) (trailing : Text) (pad : Padding)
  | table (form : TableForm) (entries : List (Key × Node))
  /-- An array of tables, each with a header of its own. -/
  | tables (elements : List Node)
  deriving Repr

abbrev Entry := Key × Node

namespace Entries

def find? (name : Text) : List Entry → Option Node
  | [] => none
  | (k, n) :: es => if k.name = name then some n else find? name es

/-- Puts another node under a name, at the place and with the key that it had. -/
def replace (name : Text) (new : Node) : List Entry → List Entry
  | [] => []
  | (k, n) :: es => if k.name = name then (k, new) :: es else (k, n) :: replace name new es

def erase (name : Text) : List Entry → List Entry
  | [] => []
  | (k, n) :: es => if k.name = name then es else (k, n) :: erase name es

/-- Changes the node under a name, or appends one that grows from nothing. -/
def alter? (key : Key) (change : Option Node → Option Node) (es : List Entry) : Option (List Entry) :=
  match find? key.name es with
  | none => (change none).map fun n => es ++ [(key, n)]
  | some n => (change (some n)).map fun m => replace key.name m es

theorem find?_replace_self {name : Text} {new old : Node} {es : List Entry}
    (h : find? name es = some old) : find? name (replace name new es) = some new := by
  induction es with
  | nil => simp [find?] at h
  | cons e es ih =>
    by_cases hk : e.1.name = name
    · simp [replace, find?, hk]
    · simp [replace, find?, hk] at h ⊢
      exact ih h

theorem find?_replace_of_ne {name other : Text} {new : Node} (es : List Entry)
    (h : other ≠ name) : find? other (replace name new es) = find? other es := by
  induction es with
  | nil => rfl
  | cons e es ih =>
    by_cases hk : e.1.name = name
    · simp [replace, find?, hk, Ne.symm h]
    · simp [replace, find?, hk, ih]

end Entries

namespace Node

def isString : Node → Bool
  | .scalar (.string _) _ _ => true
  | _ => false

def string? : Node → Option Text
  | .scalar (.string s) _ _ => some s
  | _ => none

def boolean? : Node → Option Bool
  | .scalar (.boolean b) _ _ => some b
  | _ => none

def entries? : Node → Option (List Entry)
  | .table _ es => some es
  | _ => none

def mapEntries (f : List Entry → List Entry) : Node → Node
  | .table form es => .table form (f es)
  | n => n

/-- The padding of a value. Tables written by headers or dotted keys have none. -/
def pad : Node → Padding
  | .scalar _ _ p => p
  | .array _ _ _ p => p
  | .table (.inline _ p) _ => p
  | _ => {}

def withPad (p : Padding) : Node → Node
  | .scalar d w _ => .scalar d w p
  | .array items comma trailing _ => .array items comma trailing p
  | .table (.inline preamble _) es => .table (.inline preamble p) es
  | n => n

def get? (name : Text) (n : Node) : Option Node := n.entries?.bind (Entries.find? name)

end Node

end WorkspaceRelease.Toml

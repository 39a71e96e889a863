import WorkspaceRelease.Toml.Node

/-!
How assignments and headers grow a tree of entries, and which of them are refused: no key is given
twice, no value is extended, and no table is opened twice.
-/

namespace WorkspaceRelease.Toml

structure Assignment where
  path : List Key
  value : Node
  deriving Repr

def changeLast? (f : List Entry → Option (List Entry)) : List Node → Option (List Node)
  | [] => none
  | [.table form es] => (f es).map fun es => [.table form es]
  | [_] => none
  | n :: ns => (changeLast? f ns).map (n :: ·)

/-- Dotted keys extend tables made by dotted keys. A table made by headers can only be passed
through on the way to one of those. -/
def extendDotted? (passing : Bool) (form : TableForm) (f : List Entry → Option (List Entry)) :
    Option Node → Option Node
  | none => (f []).map (.table form)
  | some (.table .dotted es) => (f es).map (.table .dotted)
  | some (.table .inlineDotted es) => (f es).map (.table .inlineDotted)
  | some (.table .implicit es) => if passing then (f es).map (.table .implicit) else none
  | some (.tables ts) => if passing then (changeLast? f ts).map .tables else none
  | some _ => none

/-- Gives a value to a dotted path; the tables on the way are made in the given form. -/
def assign? (form : TableForm) : List Key → Node → List Entry → Option (List Entry)
  | [], _, _ => none
  | [k], n, es => Entries.alter? k (fun old => if old.isNone then some n else none) es
  | k :: l :: ks, n, es =>
    Entries.alter? k (extendDotted? (!ks.isEmpty) form (assign? form (l :: ks) n)) es

def assignAll? (form : TableForm) (es : List Entry) (as : List Assignment) : Option (List Entry) :=
  as.foldlM (fun es a => assign? form a.path a.value es) es

/-- Headers lead through tables of any form but braces, and through the last table of an array. -/
def enterParent? (f : List Entry → Option (List Entry)) : Option Node → Option Node
  | none => (f []).map (.table .implicit)
  | some (.table .implicit es) => (f es).map (.table .implicit)
  | some (.table .dotted es) => (f es).map (.table .dotted)
  | some (.table (.headed place pad) es) => (f es).map (.table (.headed place pad))
  | some (.tables ts) => (changeLast? f ts).map .tables
  | some _ => none

inductive HeaderKind where
  | table
  | element
  deriving DecidableEq, Repr

structure Section where
  kind : HeaderKind
  path : List Key
  pad : Padding
  body : List Assignment
  deriving Repr

/-- Opens a table among the entries of its parent. A parent of earlier headers is taken out and put
at the end, with the key of its own header. -/
def openTable? (place : Nat) (s : Section) (key : Key) (es : List Entry) : Option (List Entry) := do
  let inner ← match Entries.find? key.name es with
    | none => some []
    | some (.table .implicit inner) => some inner
    | some _ => none
  let inner ← assignAll? .dotted inner s.body
  some (Entries.erase key.name es ++ [(key, .table (.headed place s.pad) inner)])

def openElement? (place : Nat) (s : Section) (key : Key) (es : List Entry) : Option (List Entry) := do
  let element ← (assignAll? .dotted [] s.body).map (.table (.headed place s.pad))
  Entries.alter? key (fun
    | none => some (.tables [element])
    | some (.tables ts) => some (.tables (ts ++ [element]))
    | some _ => none) es

def openSection? (place : Nat) (s : Section) : List Key → List Entry → Option (List Entry)
  | [], _ => none
  | [k], es =>
    match s.kind with
    | .table => openTable? place s k es
    | .element => openElement? place s k es
  | k :: l :: ks, es => Entries.alter? k (enterParent? (openSection? place s (l :: ks))) es

/-- Sections count from the given place on. -/
def openSections? (place : Nat) : List Section → List Entry → Option (List Entry)
  | [], es => some es
  | s :: ss, es => do openSections? (place + 1) ss (← openSection? place s s.path es)

end WorkspaceRelease.Toml

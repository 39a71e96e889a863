import WorkspaceRelease.Toml.Outline
import WorkspaceRelease.Toml.Statement

/-!
Documents as trees. Reading builds the tree from the statements of the text; writing puts the
tables back in the order of their headers and lists their statements.
-/

namespace WorkspaceRelease.Toml

structure Document where
  entries : List Entry
  trailing : Text
  deriving Repr

namespace Document

def entriesOf? (statements : List Statement) : Option (List Entry) := do
  let (body, rest) := sections statements
  openSections? 1 rest (← assignAll? .dotted [] body)

/-- A byte order mark at the very start is not part of the document. -/
def dropMark : Text → Text
  | '\ufeff' :: s => s
  | s => s

/-- Reads a document. Of two faults the first in the text counts, but a broken outline counts before
all others. -/
def read (t : Text) : Except Fault Document :=
  let s := dropMark t
  let (statements, ending) := readStatements (s.length + 1) s
  match entriesOf? statements, ending with
  | some entries, .ok trailing => .ok ⟨entries, trailing⟩
  | some _, .error fault => .error (if Outline.isSound s then fault else .malformed)
  | none, _ => .error .malformed

end Document

mutual

/-- The assignments of a table: its values and those of the dotted tables in it. -/
def assignments (path : List Key) : List (Key × Node) → List Assignment
  | [] => []
  | (k, n) :: es => n.assignments (path ++ [k]) ++ assignments path es

def Node.assignments (path : List Key) : Node → List Assignment
  | .scalar d w p => [⟨path, .scalar d w p⟩]
  | .array items comma trailing p => [⟨path, .array items comma trailing p⟩]
  | .table form es =>
    match form with
    | .dotted => assignments path es
    | .inline preamble p => [⟨path, .table (.inline preamble p) es⟩]
    | _ => []
  | .tables _ => []

end

structure PlacedSection where
  place : Option Nat
  content : Section
  deriving Repr

mutual

/-- The tables below some entries, depth first. One that only headers made is written where values
were put into it. -/
def placedSections (path : List Key) : List (Key × Node) → List PlacedSection
  | [] => []
  | (k, n) :: es => n.placedSections .table (path ++ [k]) ++ placedSections path es

def Node.placedSections (kind : HeaderKind) (path : List Key) : Node → List PlacedSection
  | .scalar _ _ _ => []
  | .array _ _ _ _ => []
  | .table form es =>
    match form with
    | .headed place pad =>
      ⟨some place, ⟨kind, path, pad, assignments [] es⟩⟩ :: Toml.placedSections path es
    | .implicit =>
      let body := assignments [] es
      if body.isEmpty then Toml.placedSections path es
      else ⟨none, ⟨kind, path, {}, body⟩⟩ :: Toml.placedSections path es
    | .dotted => Toml.placedSections path es
    | _ => []
  | .tables ts => elementSections path ts

def elementSections (path : List Key) : List Node → List PlacedSection
  | [] => []
  | t :: ts => t.placedSections .element path ++ elementSections path ts

end

/-- A section without a place takes the one of the section before it. -/
def settle (place : Nat) : List PlacedSection → List (Nat × Section)
  | [] => []
  | s :: ss => (s.place.getD place, s.content) :: settle (s.place.getD place) ss

def insertByPlace (s : Nat × Section) : List (Nat × Section) → List (Nat × Section)
  | [] => [s]
  | t :: ts => if s.1 ≤ t.1 then s :: t :: ts else t :: insertByPlace s ts

/-- Sections of one place stay in the order in which they stand. -/
def sortByPlace (ss : List (Nat × Section)) : List (Nat × Section) := ss.foldr insertByPlace []

/-- A header without padding stands after a blank line, except at the start of the document. -/
def Section.statements (first : Bool) (s : Section) : List Statement :=
  let before := if first then [] else ['\n']
  .header s.kind s.path ⟨some (s.pad.before.getD before), some (s.pad.after.getD [])⟩ ::
    s.body.map .assignment

namespace Document

def statements (d : Document) : List Statement :=
  let body := assignments [] d.entries
  let ordered := (sortByPlace (settle 0 (placedSections [] d.entries))).map (·.2)
  body.map .assignment ++
    match ordered with
    | [] => []
    | s :: ss => s.statements body.isEmpty ++ ss.flatMap (Section.statements false)

def render (d : Document) : Text := d.statements.flatMap Statement.render ++ d.trailing

end Document

end WorkspaceRelease.Toml

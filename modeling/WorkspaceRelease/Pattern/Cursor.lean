import WorkspaceRelease.Pattern.Fault
import WorkspaceRelease.Text.Blank

/-!
Reading a pattern moves a cursor through its text. Blank space and comments count as nothing where a
mode of the pattern says so.
-/

namespace WorkspaceRelease.Pattern

structure Cursor where
  rest : Text
  position : Position
  /-- Whether blank space and comments are left out. -/
  spaced : Bool
  /-- The names of the groups before the cursor. -/
  names : List (Text × Span)
  deriving Repr

namespace Cursor

def ofText (t : Text) : Cursor := ⟨t, .first, false, []⟩

def bump (k : Cursor) : Cursor :=
  match k.rest with
  | [] => k
  | c :: s => { k with rest := s, position := k.position.next c }

def advance (k : Cursor) : Nat → Cursor
  | 0 => k
  | n + 1 => k.bump.advance n

/-- How many characters of blank space and of comments, which a line ends, a text starts with. -/
def blankLength (comment : Bool) : Text → Nat
  | [] => 0
  | c :: s =>
    if comment then blankLength (c ≠ '\n') s + 1
    else if isBlank c then blankLength false s + 1
    else if c = '#' then blankLength true s + 1
    else 0

def skip (k : Cursor) : Cursor := if k.spaced then k.advance (blankLength false k.rest) else k

end Cursor

abbrev Reading := StateT Cursor (Except Fault)

namespace Reading

variable {α : Type}

def next? : Reading (Option Char) := return (← get).rest.head?

def here : Reading Position := return (← get).position

def skip : Reading Unit := modify Cursor.skip

/-- Passes a character, and returns the one behind it. -/
def bump : Reading (Option Char) := do
  modify Cursor.bump
  next?

/-- Passes a character and the blank space behind it. -/
def bumpSkip : Reading (Option Char) := do
  modify fun k => k.bump.skip
  next?

/-- Passes a text if it comes next. -/
def accept (t : Text) : Reading Bool := do
  let k ← get
  if t.isPrefixOf k.rest then
    set (k.advance t.length)
    return true
  else
    return false

def spanFrom (start : Position) : Reading Span := return ⟨start, ← here⟩

/-- The span of the next character. -/
def nextSpan : Reading Span := do
  let k ← get
  return ⟨k.position, k.bump.position⟩

def fail (reason : Reason) (span : Span) : Reading α := throw { reason, span }

def failFrom (reason : Reason) (start : Position) : Reading α := do fail reason (← spanFrom start)

def failHere (reason : Reason) : Reading α := do failFrom reason (← here)

def failNext (reason : Reason) : Reading α := do fail reason (← nextSpan)

end Reading

end WorkspaceRelease.Pattern

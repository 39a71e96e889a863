import WorkspaceRelease.Text.Basic

/-!
Places in a pattern, by line and column.
-/

namespace WorkspaceRelease.Pattern

/-- Lines and columns count from one. -/
structure Position where
  line : Nat
  column : Nat
  deriving DecidableEq, Repr

namespace Position

def first : Position := ⟨1, 1⟩

def next (p : Position) (c : Char) : Position :=
  if c = '\n' then ⟨p.line + 1, 1⟩ else { p with column := p.column + 1 }

def before (p q : Position) : Bool := p.line < q.line || (p.line = q.line && p.column < q.column)

end Position

/-- A part of a pattern from its first position to the one behind it. -/
structure Span where
  start : Position
  stop : Position
  deriving DecidableEq, Repr

namespace Span

def isOneLine (s : Span) : Bool := s.start.line = s.stop.line

def before (s t : Span) : Bool :=
  s.start.before t.start || (s.start = t.start && s.stop.before t.stop)

end Span

end WorkspaceRelease.Pattern

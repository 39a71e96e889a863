import WorkspaceRelease.Text.Basic

/-!
Paths are text with `/` between segments. Joining works on the text and normalises nothing; a path
is compared through its components, where repeated slashes and inner `.` segments do not count.
-/

namespace WorkspaceRelease

abbrev Path := Text

namespace Path

def isAbsolute (p : Path) : Bool := p.head? = some '/'

/-- An absolute right side replaces the left one; otherwise one slash stands between them. -/
def join (base p : Path) : Path :=
  if isAbsolute p then p
  else if base.isEmpty || base.getLast? = some '/' then base ++ p
  else base ++ '/' :: p

/-- The segments that name no step of their own. -/
def isIdle (segment : Text) : Bool := segment.isEmpty || segment = ['.']

/-- The component that only the start of a path can hold, the root or `.`, and the segments after
it. -/
def start (p : Path) : List Text × List Text :=
  match Text.splitOn '/' p with
  | [] :: segment :: segments => ([['/']], segment :: segments)
  | ['.'] :: segments => ([['.']], segments)
  | segments => ([], segments)

def components (p : Path) : List Text :=
  p.start.1 ++ p.start.2.filter fun segment => !isIdle segment

/-- What is left of the segments once the components are taken off their front, from the next
segment that names a step. -/
def dropComponents : List Text → List Text → Option (List Text)
  | [], segments => some (segments.dropWhile isIdle)
  | c :: cs, segments =>
    match segments.dropWhile isIdle with
    | [] => none
    | segment :: rest => if segment = c then dropComponents cs rest else none

/-- The part of a path below a base whose components its own start with. -/
def below? (p base : Path) : Option Path :=
  match components base, p.start with
  | [], _ => some p
  | c :: cs, ([], segments) => (dropComponents (c :: cs) segments).map (Text.joinWith ['/'])
  | c :: cs, (first :: _, segments) =>
    if first = c then (dropComponents cs segments).map (Text.joinWith ['/']) else none

/-- How a path is shown to someone who works in the base directory. -/
def relative (p base : Path) : Path := (p.below? base).getD p

end Path

end WorkspaceRelease

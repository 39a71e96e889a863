import WorkspaceRelease.Text.Basic

/-!
Lines end at a line feed; one carriage return before it belongs to the line end. A last line
needs no line end, and an empty one after the last line end is none.
-/

namespace WorkspaceRelease.Text

/-- Removes one carriage return from the end of a line. -/
def dropReturn : Text → Text
  | [] => []
  | ['\r'] => []
  | c :: s => c :: dropReturn s

/-- The pieces between line feeds, each without its carriage return; the piece after the last line
feed keeps its own and is dropped when empty. -/
def lines (t : Text) : List Text :=
  let pieces := splitOn '\n' t
  pieces.dropLast.map dropReturn ++ (pieces.getLast?.toList.filter fun last => !last.isEmpty)

end WorkspaceRelease.Text

import WorkspaceRelease.Pattern.Meaning
import WorkspaceRelease.Pattern.Term

/-!
Patterns, which texts are searched for.
-/

namespace WorkspaceRelease

/-- Why a text cannot be searched for. -/
inductive PatternError where
  | fault (f : Pattern.Fault)
  /-- It asks for the words of all scripts. -/
  | words
  | tooLarge
  deriving DecidableEq, Repr

namespace Pattern

/-- A machine for a pattern takes at most this many bytes. -/
def sizeLimit : Nat := 10 <<< 20

def ofText (pattern : Text) : Except PatternError Expression := do
  let t ← (Term.ofText pattern).mapError PatternError.fault
  let (e, _) ← (t.meaning {}).mapError PatternError.fault
  if e.asksForWords then .error .words
  else if sizeLimit < e.size then .error .tooLarge
  else .ok e

end Pattern

def PatternError.display (pattern : Text) : PatternError → Text
  | .fault f => f.display pattern
  | .words => "error building NFA".toList
  | .tooLarge =>
    "Compiled regex exceeds size limit of ".toList ++ Text.ofNat Pattern.sizeLimit ++ " bytes.".toList

end WorkspaceRelease

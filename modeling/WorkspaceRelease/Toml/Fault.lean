import WorkspaceRelease.Text.Basic

/-!
Why a text is not a document.
-/

namespace WorkspaceRelease.Toml

inductive Fault where
  | malformed
  | pathTooLong
  deriving DecidableEq, Repr

def Fault.message : Fault → Text
  | .malformed => "TOML parse error".toList
  | .pathTooLong => "recursion limit\n".toList

end WorkspaceRelease.Toml

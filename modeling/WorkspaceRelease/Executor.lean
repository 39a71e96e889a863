import WorkspaceRelease.Effect

/-!
An executor that starts nothing: its answers are listed beforehand, by command.
-/

namespace WorkspaceRelease

inductive Failure where
  | spawn (cause : Text)
  | status (s : ExitStatus)
  deriving DecidableEq, Repr

def Failure.error (command : Text) : Failure → ReleaseError
  | .spawn cause => .commandSpawn command cause
  | .status s => .commandFailed command s

/-- The first failure that is listed for a command is its answer; other commands succeed. -/
def Executor.scripted (failures : List (Text × Failure)) : Executor Unit := fun i _ files =>
  let result := match failures.lookup i.display with
    | some failure => .error (failure.error i.display)
    | none => .ok ()
  ⟨result, (), files, []⟩

end WorkspaceRelease

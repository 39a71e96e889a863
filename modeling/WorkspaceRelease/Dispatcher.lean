import WorkspaceRelease.Effect

/-!
The dispatcher runs commands one at a time. Each is printed before it runs; a dry run prints and
does nothing else. The first failure ends a sequence, unless the dispatcher is to keep going: then
it becomes a warning.
-/

namespace WorkspaceRelease

variable {σ : Type}

structure Dispatcher (σ : Type) where
  executor : Executor σ
  dryRun : Bool
  keepGoing : Bool

namespace Dispatcher

/-- Turns the failure of a command into a warning. -/
def forgive (e : ReleaseError) : ReleaseM σ Unit := do
  ReleaseM.log .debug .dispatch ("Continuing after failure: ".toList ++ e.detail)
  let warning ← ReleaseM.paint .yellowBold "warning:".toList
  ReleaseM.warnLine (warning ++ ' ' :: e.message)

def run (d : Dispatcher σ) (i : Invocation) : ReleaseM σ Unit := do
  let running ← ReleaseM.paint .cyan "running".toList
  ReleaseM.printLine (running ++ ' ' :: i.display)
  if d.dryRun then
    pure ()
  else if d.keepGoing then
    tryCatch (ReleaseM.execute d.executor i) forgive
  else
    ReleaseM.execute d.executor i

/-- Commits all changes, then tags the commit. -/
def tag (d : Dispatcher σ) (version : Text) : ReleaseM σ Unit := do
  let tagging ← ReleaseM.paint .greenBold "tagging".toList
  ReleaseM.printLine (tagging ++ ' ' :: tagName version)
  d.run (.commit version)
  d.run (.tag version)

/-- Publishes the packages one after another. -/
def publish (d : Dispatcher σ) : List Text → ReleaseM σ Unit
  | [] => pure ()
  | package :: packages => do
    let publishing ← ReleaseM.paint .greenBold "publishing".toList
    ReleaseM.printLine (publishing ++ ' ' :: package)
    d.run (.publish package)
    d.publish packages

end Dispatcher

end WorkspaceRelease

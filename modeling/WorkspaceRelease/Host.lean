import WorkspaceRelease.Effect

/-!
A host starts programs in a directory and waits for them to end. The executor on top of it turns a
program that cannot start, or that does not succeed, into an error.
-/

namespace WorkspaceRelease

/-- A program that has ended. -/
structure Finished where
  status : ExitStatus
  files : FileTree
  output : List Output

/-- Starts a program in a directory that is there. -/
abbrev Host := Invocation → Location → FileTree → Except FileError Finished

namespace Host

def nulInArgument : Text := "nul byte found in provided data".toList

/-- The directory that a path names, if it can be entered. -/
def enter (files : FileTree) (cwd : Location) (directory : Path) : Except FileError Location := do
  let l ← files.resolve cwd directory
  match ← files.passage l with
  | some refusal => .error refusal
  | none => .ok l

/-- The program's end, or why it did not start. -/
def launch (host : Host) (cwd : Location) (directory : Path) (i : Invocation) (files : FileTree) :
    Except Text Finished :=
  if (directory :: i.program :: i.args).any fun t => t.contains '\x00' then .error nulInArgument
  else
    match (do host i (← enter files cwd directory) files : Except FileError Finished) with
    | .ok finished => .ok finished
    | .error e => .error e.message

/-- Runs each command in the same directory. -/
def executor (host : Host) (cwd : Location) (directory : Path) : Executor Unit := fun i _ files =>
  let spawning : Output :=
    .log ⟨.debug, .dispatch, "Spawning `".toList ++ i.display ++ "` in ".toList ++ directory⟩
  match host.launch cwd directory i files with
  | .error cause => ⟨.error (.commandSpawn i.display cause), (), files, [spawning]⟩
  | .ok finished =>
    ⟨if finished.status.isSuccess then .ok () else .error (.commandFailed i.display finished.status),
      (), finished.files, spawning :: finished.output⟩

end Host

end WorkspaceRelease

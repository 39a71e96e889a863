import WorkspaceRelease.Host
import WorkspaceRelease.Text.Lines

/-!
Programs for a rehearsal. They stand in for the tools of a release and work on the file tree alone:
each shows the command line it was given and ends as the file `stub.txt` in its directory says.
-/

namespace WorkspaceRelease.Rehearsal

abbrev Program := List Text → Location → FileTree → Finished

def ending (code : Nat) (files : FileTree) (output : List Output) : Finished :=
  ⟨.exited code, files, output⟩

def succeed : Program := fun _ _ files => ending 0 files []

def fail : Program := fun _ _ files => ending 1 files []

def echo : Program := fun args _ files =>
  ending 0 files [.stdout (Text.joinWith [' '] args ++ ['\n'])]

/-- Shows the named files; standard input is empty. -/
def cat : Program := fun args cwd files =>
  let shown := args.map fun p =>
    match files.readText cwd p with
    | .ok t => (true, Output.stdout t)
    | .error e =>
      let reason := Text.trimEnd (e.message.takeWhile fun c => c ≠ '(')
      (false, .stderr ("cat: ".toList ++ p ++ ": ".toList ++ reason ++ ['\n']))
  ending (if shown.all (·.1) then 0 else 1) files (shown.map (·.2))

/-- The end by a signal, unless the signal leaves the process alive. -/
def killed? (number : Nat) : Option ExitStatus :=
  if ExitStatus.isDeadly number then some (.signalled number false) else none

/-- A code that is a number, or `sig` and the number of a signal. -/
def status? (code : Text) : Option ExitStatus :=
  match code with
  | 's' :: 'i' :: 'g' :: number =>
    (String.ofList number).toNat?.map fun n => (killed? n).getD (.exited 0)
  | number => (String.ofList number).toNat?.map fun n => .exited (n % 256)

/-- The status on the first line that names the command. -/
def plannedStatus (command : Text) (plan : Text) : ExitStatus :=
  let planned := plan.lines.findSome? fun line =>
    match Text.cut? ' ' line with
    | some (code, c) => if c = command then status? code else none
    | none => none
  planned.getD (.exited 0)

def planFile : Path := "stub.txt".toList

def standIn (name : Text) : Program := fun args cwd files =>
  let command := Text.joinWith [' '] (name :: args)
  let status := match files.readText cwd planFile with
    | .ok plan => plannedStatus command plan
    | .error _ => .exited 0
  ⟨status, files, [.stdout ("stub: ".toList ++ command ++ ['\n'])]⟩

def programs : List (Text × Program) :=
  [("true".toList, succeed), ("false".toList, fail), ("echo".toList, echo), ("cat".toList, cat),
   ("git".toList, standIn "git".toList), ("cargo".toList, standIn "cargo".toList)]

end WorkspaceRelease.Rehearsal

import WorkspaceRelease.Rehearsal.Programs

/-!
A shell for rehearsals: commands one after another, with quoted words and redirected output.
-/

namespace WorkspaceRelease.Rehearsal

/-- Splits a command into words, which blank space ends unless it stands in quotes. -/
def shellWords (quote : Option Char) (word : Option Text) : Text → List Text
  | [] => word.toList
  | c :: s =>
    match quote with
    | some q =>
      if c = q then shellWords none word s else shellWords quote (some (word.getD [] ++ [c])) s
    | none =>
      if c = '\'' || c = '"' then shellWords (some c) (some (word.getD [])) s
      else if isBlank c then word.toList ++ shellWords none none s
      else shellWords none (some (word.getD [] ++ [c])) s

/-- Where the standard output of a command goes. -/
inductive Target where
  | stdout
  | stderr
  | file (path : Path)

/-- The words of a command without its redirection. -/
def redirect : List Text → List Text × Target
  | [] => ([], .stdout)
  | ['>', '&', '2'] :: ws => ((redirect ws).1, .stderr)
  | ['1', '>', '&', '2'] :: ws => ((redirect ws).1, .stderr)
  | ['>'] :: path :: ws => ((redirect ws).1, .file path)
  | w :: ws => (w :: (redirect ws).1, (redirect ws).2)

def printed (output : List Output) : Text :=
  output.flatMap fun
    | .stdout t => t
    | _ => []

def deliver (target : Target) (cwd : Location) (f : Finished) : Finished :=
  match target with
  | .stdout => f
  | .stderr => { f with output := f.output.map fun
      | .stdout t => .stderr t
      | o => o }
  | .file path =>
    let rest := f.output.filter fun
      | .stdout _ => false
      | _ => true
    match f.files.writeText cwd path (printed f.output) with
    | .ok files => { f with files, output := rest }
    | .error _ => { f with status := .exited 2, output := rest }

def notFound (name : Text) : Program := fun _ _ files =>
  ending 127 files [.stderr ("sh: 1: ".toList ++ name ++ ": not found\n".toList)]

/-- A signal given by number or by name. -/
def signal? (t : Text) : Option Nat :=
  match ExitStatus.signals.find? fun s => s.2 = t with
  | some (number, _) => some number
  | none =>
    match (String.ofList t).toNat? with
    | some number => if number ≤ ExitStatus.lastSignal then some number else none
    | none => none

/-- What a command does to the shell itself. -/
inductive Control where
  | ends (status : ExitStatus)
  /-- The shell sends itself a signal that it survives. -/
  | survives
  | none

def control (last : ExitStatus) (words : List Text) : Control :=
  match words.map String.ofList with
  | ["exit"] => .ends last
  | ["exit", code] => .ends (.exited ((code.toNat?.map (· % 256)).getD 2))
  | ["kill", signal, "$$"] =>
    match signal? (signal.toList.drop 1) with
    | some number => ((killed? number).map Control.ends).getD .survives
    | none => .none
  | _ => .none

/-- Runs the commands until one of them ends the shell. -/
def runScript (cwd : Location) (last : Finished) : List Text → Finished
  | [] => last
  | command :: commands =>
    match redirect (shellWords none none command) with
    | ([], _) => runScript cwd last commands
    | (name :: args, target) =>
      match control last.status (name :: args) with
      | .ends status => { last with status }
      | .survives => runScript cwd { last with status := .exited 0 } commands
      | .none =>
        let program := (programs.lookup name).getD (notFound name)
        let f := deliver target cwd (program args cwd last.files)
        runScript cwd { f with output := last.output ++ f.output } commands

def shell : Program := fun args cwd files =>
  match args with
  | ['-', 'c'] :: script :: _ => runScript cwd (ending 0 files []) (Text.splitOn ';' script)
  | _ => ending 0 files []

/-- A rehearsal knows its programs by name; no file of the tree can be executed, and no directory,
which a name of dots alone would find. -/
def host : Host := fun i cwd files =>
  if i.program.contains '/' then do
    let l ← files.resolve cwd i.program
    if (files.lookup l).isSome then .error .permissionDenied else .error .notFound
  else if FileTree.nameLimit < i.program.byteSize then .error .nameTooLong
  else if i.program = ['.'] || i.program = ['.', '.'] then .error .permissionDenied
  else
    match (("sh".toList, shell) :: programs).lookup i.program with
    | some program => .ok (program i.args cwd files)
    | none => .error .notFound

end WorkspaceRelease.Rehearsal

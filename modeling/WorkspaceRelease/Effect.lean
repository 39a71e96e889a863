import WorkspaceRelease.Error
import WorkspaceRelease.Log

/-!
The effects of a run: reading and writing files, executing commands, printing and logging. A run is
a function on the world that may stop with an error; every effect leaves an event in the world's
trace, so that the order of effects can be spoken about.
-/

namespace WorkspaceRelease

inductive Output where
  | stdout (t : Text)
  | stderr (t : Text)
  | log (r : LogRecord)
  deriving DecidableEq, Repr

inductive Event where
  | read (path : Path)
  | write (path : Path)
  | call (i : Invocation)
  | output (o : Output)
  deriving DecidableEq, Repr

/-- What an executed command leaves behind. -/
structure Reply (σ : Type) where
  result : Except ReleaseError Unit
  state : σ
  files : FileTree
  output : List Output

/-- An executor is a state machine: its answer may depend on all commands before. -/
abbrev Executor (σ : Type) := Invocation → σ → FileTree → Reply σ

structure World (σ : Type) where
  files : FileTree
  cwd : Location
  /-- The state of the executor. -/
  state : σ
  /-- Whether printed words are coloured. -/
  painted : Bool
  trace : List Event

abbrev ReleaseM (σ : Type) := ExceptT ReleaseError (StateM (World σ))

variable {σ : Type}

namespace World

def record (w : World σ) (events : List Event) : World σ := { w with trace := w.trace ++ events }

def calls (w : World σ) : List Invocation :=
  w.trace.filterMap fun
    | .call i => some i
    | _ => none

def reads (w : World σ) : List Path :=
  w.trace.filterMap fun
    | .read p => some p
    | _ => none

def outputs (w : World σ) : List Output :=
  w.trace.filterMap fun
    | .output o => some o
    | _ => none

end World

namespace ReleaseM

def emit (o : Output) : ReleaseM σ Unit := modify fun w => w.record [.output o]

def printLine (t : Text) : ReleaseM σ Unit := emit (.stdout (t ++ ['\n']))

def warnLine (t : Text) : ReleaseM σ Unit := emit (.stderr (t ++ ['\n']))

def log (level : Level) (source : LogSource) (t : Text) : ReleaseM σ Unit :=
  emit (.log ⟨level, source, t⟩)

/-- Reads a file; a failure becomes the given error. -/
def readText (p : Path) (onError : FileError → ReleaseError) : ReleaseM σ Text := do
  let w ← get
  set (w.record [.read p])
  match w.files.readText w.cwd p with
  | .ok t => pure t
  | .error e => throw (onError e)

def writeText (p : Path) (t : Text) (onError : FileError → ReleaseError) : ReleaseM σ Unit := do
  let w ← get
  match w.files.writeText w.cwd p t with
  | .ok files => set ({ w with files }.record [.write p])
  | .error e => throw (onError e)

def execute (executor : Executor σ) (i : Invocation) : ReleaseM σ Unit := do
  let w ← get
  let reply := executor i w.state w.files
  set ({ w with state := reply.state, files := reply.files }.record (.call i :: reply.output.map .output))
  match reply.result with
  | .ok _ => pure ()
  | .error e => throw e

end ReleaseM

inductive Style where
  | greenBold
  | cyan
  | yellow
  | yellowBold
  deriving DecidableEq, Repr

def Style.code : Style → Text
  | .greenBold => "1;32".toList
  | .cyan => "36".toList
  | .yellow => "33".toList
  | .yellowBold => "1;33".toList

/-- The word between the escape sequences of a style, or the bare word. -/
def paint (painted : Bool) (style : Style) (word : Text) : Text :=
  if painted then "\x1b[".toList ++ style.code ++ 'm' :: word ++ "\x1b[0m".toList else word

def ReleaseM.paint (style : Style) (word : Text) : ReleaseM σ Text := do
  let w ← get
  pure (WorkspaceRelease.paint w.painted style word)

end WorkspaceRelease

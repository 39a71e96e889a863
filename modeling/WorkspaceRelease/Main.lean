import WorkspaceRelease.CommandLine.Run

/-!
The command line. Files are fetched as a run asks for them: it is run again until every path that it
reads is known, and only then does it write and print. What the system refuses is fetched with them, so
that the run answers for it. No programs can be started from here.
-/

namespace WorkspaceRelease.CommandLine

def bareHost : Host := fun _ _ _ => .error .notFound

def diskPath (l : Location) : String := String.ofList ('/' :: Text.joinWith ['/'] l)

def causeOf : IO.Error → FileError
  | .noFileOrDirectory .. => .notFound
  | .permissionDenied _ 13 _ => .permissionDenied
  | .inappropriateType _ 21 _ => .isADirectory
  | .inappropriateType .. => .notADirectory
  | .invalidArgument _ 36 _ => .nameTooLong
  | .permissionDenied _ code words | .invalidArgument _ code words | .resourceExhausted _ code words
  | .noSuchThing _ code words | .resourceBusy code words | .hardwareFault code words
  | .otherError code words => .other s!"{words} (os error {code})".toList
  | e => .other (toString e).toList

/-- Why the system refuses an action, if it does. -/
def refusal? {α : Type} (action : IO α) : IO (Option FileError) := do
  match ← action.toBaseIO with
  | .ok _ => return none
  | .error e => return some (causeOf e)

/-- What stands at a location of a directory that can be searched. No directory opens for writing, whatever
else it refuses. Nothing is made in one, so what it refuses to take is not asked for. -/
def fetchEntry (l : Location) : IO (Option (FileEntry × Guard)) := do
  let path := diskPath l
  let write ← refusal? (IO.FS.Handle.mk path .readWrite)
  let bytes ← (do (← IO.FS.Handle.mk path .read).readBinToEnd : IO ByteArray).toBaseIO
  let read : Option FileError := match bytes with
    | .ok _ => none
    | .error e => some (causeOf e)
  match write with
  | some .notFound | some .nameTooLong => return none
  | some .isADirectory =>
    let search ← refusal? (IO.FS.Handle.mk (path ++ "/.") .readWrite)
    let guard : Guard := { read := read.filter (· ≠ .isADirectory), search := search.filter (· ≠ .isADirectory) }
    return some (.directory, guard)
  | _ =>
    let content : Content := match bytes with
      | .ok bytes => .ofBytes bytes.toList
      | .error _ => .binary []
    return some (.file content, { read, write })

def fetch (files : FileTree) (l : Location) : IO FileTree := do
  let mut files := files
  for depth in List.range l.length do
    let l := l.take (depth + 1)
    if let .ok none := files.passage l.dropLast then
      if (files.lookup l).isNone then
        if let some (entry, guard) ← fetchEntry l then
          files := { files.insert l entry with guards := (l, guard) :: files.guards }
  return files

/-- The location that a path names by its letters. -/
def spelled (cwd : Location) (p : Path) : Location :=
  (Text.splitOn '/' p).foldl (fun l segment =>
    if Path.isIdle segment then l
    else if segment = ['.', '.'] then l.dropLast
    else l ++ [segment]) (Path.origin cwd p)

/-- Runs until no path is read that has not been fetched. -/
partial def runFetching (words : List Text) (logAsked : Option Text) (cwd : Location)
    (files : FileTree) (fetched : List Path) : IO (FileTree × Finish) := do
  let finish := run bareHost words logAsked files cwd
  match finish.reads.filter fun p => !fetched.contains p with
  | [] => return (files, finish)
  | missing =>
    let files ← missing.foldlM (fun files p => fetch files (spelled cwd p)) files
    runFetching words logAsked cwd files (missing ++ fetched)

/-- Writes texts to the disk, up to the first that the system refuses. -/
def writeBack : List (Location × Content) → IO (Option (Location × FileError))
  | [] => return none
  | (_, .binary _) :: rest => writeBack rest
  | (l, .text t) :: rest => do
    match ← refusal? (IO.FS.writeFile (diskPath l) (String.ofList t)) with
    | some cause => return some (l, cause)
    | none => writeBack rest

/-- Runs and writes. A write that fails although the file could be opened for it is known to the next
run. -/
partial def runWriting (words : List Text) (logAsked : Option Text) (cwd : Location)
    (files : FileTree) : IO Finish := do
  let (files, finish) ← runFetching words logAsked cwd files []
  match ← writeBack (finish.files.newSince files) with
  | none => return finish
  | some (l, cause) =>
    let guard : Guard := { files.guardAt l with write := some cause }
    runWriting words logAsked cwd { files with guards := (l, guard) :: files.guards }

def display : Output → IO Unit
  | .stdout t => IO.print (String.ofList t)
  | .stderr t => IO.eprint (String.ofList t)
  | .log r => IO.eprint (String.ofList r.line)

end WorkspaceRelease.CommandLine

open WorkspaceRelease WorkspaceRelease.CommandLine in
def main (args : List String) : IO UInt32 := do
  let cwd := spelled [] (toString (← IO.currentDir)).toList
  let logAsked := (← IO.getEnv "RUST_LOG").map String.toList
  let finish ← runWriting (args.map String.toList) logAsked cwd (← fetch {} cwd)
  finish.output.forM display
  return finish.exit.toUInt32

import WorkspaceRelease.Path

/-!
A tree of files, held as a list from locations to what stands there, and what the system refuses to
do at some of them. A path is walked segment by segment, from the top or from the working directory,
so two paths that lead to one location name one file. Above the top there is only the top. There are
no links, and a write is either refused or complete.
-/

namespace WorkspaceRelease

/-- The bytes of a file: text where they are valid UTF-8. -/
inductive Content where
  | text (t : Text)
  | binary (bytes : List UInt8)
  deriving DecidableEq, Repr

def Content.ofBytes (bytes : List UInt8) : Content :=
  match String.fromUTF8? ⟨bytes.toArray⟩ with
  | some s => .text s.toList
  | none => .binary bytes

abbrev Location := List Text

/-- Where the walk along a path starts: at the top for an absolute one. -/
def Path.origin (cwd : Location) (p : Path) : Location := if p.isAbsolute then [] else cwd

inductive FileEntry where
  | file (content : Content)
  | directory
  deriving DecidableEq, Repr

inductive FileError where
  | notFound
  | permissionDenied
  | notADirectory
  | isADirectory
  | nameTooLong
  | nulByte
  | notUtf8
  /-- Any other cause, in the words of the system. -/
  | other (words : Text)
  deriving DecidableEq, Repr

def FileError.message : FileError → Text
  | .notFound => "No such file or directory (os error 2)".toList
  | .permissionDenied => "Permission denied (os error 13)".toList
  | .notADirectory => "Not a directory (os error 20)".toList
  | .isADirectory => "Is a directory (os error 21)".toList
  | .nameTooLong => "File name too long (os error 36)".toList
  | .nulByte => "file name contained an unexpected NUL byte".toList
  | .notUtf8 => "stream did not contain valid UTF-8".toList
  | .other words => words

/-- What the system refuses at a location, with the error it gives. In a directory, writing is making
an entry and searching is looking one up. -/
structure Guard where
  read : Option FileError := none
  write : Option FileError := none
  search : Option FileError := none
  deriving DecidableEq, Repr

/-- The top of the tree is a directory and has no entry of its own. Locations without a guard are
open. -/
structure FileTree where
  entries : List (Location × FileEntry) := []
  guards : List (Location × Guard) := []
  deriving DecidableEq, Repr

namespace FileTree

def lookup (files : FileTree) : Location → Option FileEntry
  | [] => some .directory
  | l => (files.entries.find? fun e => e.1 = l).map (·.2)

def guardAt (files : FileTree) (l : Location) : Guard :=
  ((files.guards.find? fun g => g.1 = l).map (·.2)).getD {}

def insert (files : FileTree) (l : Location) (entry : FileEntry) : FileTree :=
  if files.entries.any fun e => e.1 = l then
    { files with entries := files.entries.map fun e => if e.1 = l then (l, entry) else e }
  else { files with entries := files.entries ++ [(l, entry)] }

def makeDirectory (files : FileTree) (l : Location) : FileTree :=
  if (files.lookup l).isNone then files.insert l .directory else files

/-- Walks the segments from a location and makes the directories that are missing on the way; the
last name is left to the caller. -/
def makeWay (files : FileTree) (l : Location) : List Text → FileTree × Location
  | [] => (files, l)
  | segment :: segments =>
    if Path.isIdle segment then makeWay files l segments
    else if segment = ['.', '.'] then makeWay (files.makeDirectory l) l.dropLast segments
    else makeWay (files.makeDirectory l) (l ++ [segment]) segments

/-- Puts an entry where a path leads, together with the directories above it. -/
def plant (files : FileTree) (cwd : Location) (p : Path) (entry : FileEntry) : FileTree :=
  let (files, l) := files.makeWay (Path.origin cwd p) (Text.splitOn '/' p)
  match entry with
  | .directory => files.makeDirectory l
  | .file _ => files.insert l entry

def remove (files : FileTree) (l : Location) : FileTree :=
  ⟨files.entries.filter fun e => !l.isPrefixOf e.1, files.guards.filter fun g => !l.isPrefixOf g.1⟩

/-- Longest name of one entry and longest path, in bytes. -/
def nameLimit : Nat := 255

def pathLimit : Nat := 4095

/-- Why a walk goes no further at a location, or what keeps it from looking up a name there. -/
def passage (files : FileTree) (l : Location) : Except FileError (Option FileError) :=
  match files.lookup l with
  | none => .error .notFound
  | some (.file _) => .error .notADirectory
  | some .directory => .ok (files.guardAt l).search

/-- One step of a walk: only a directory can be stepped from, and no name is looked up where an empty
segment leaves the walk. -/
def step (files : FileTree) (l : Location) (segment : Text) : Except FileError Location :=
  match files.passage l with
  | .error e => .error e
  | .ok (some refusal) => if segment.isEmpty then .ok l else .error refusal
  | .ok none =>
    if Path.isIdle segment then .ok l
    else if segment = ['.', '.'] then .ok l.dropLast
    else if nameLimit < segment.byteSize then .error .nameTooLong
    else .ok (l ++ [segment])

/-- The location that a path leads to. All but its last step must exist. -/
def resolve (files : FileTree) (cwd : Location) (p : Path) : Except FileError Location :=
  if p.contains '\x00' then .error .nulByte
  else if p.isEmpty then .error .notFound
  else if pathLimit < p.byteSize then .error .nameTooLong
  else (Text.splitOn '/' p).foldlM files.step (Path.origin cwd p)

def contentAt (files : FileTree) (l : Location) : Except FileError Content :=
  match files.lookup l, (files.guardAt l).read with
  | none, _ => .error .notFound
  | some _, some refusal => .error refusal
  | some .directory, none => .error .isADirectory
  | some (.file content), none => .ok content

def read (files : FileTree) (cwd : Location) (p : Path) : Except FileError Content := do
  files.contentAt (← files.resolve cwd p)

def readText (files : FileTree) (cwd : Location) (p : Path) : Except FileError Text := do
  match ← files.read cwd p with
  | .text t => .ok t
  | .binary _ => .error .notUtf8

/-- Why no text can be written at a location: a file must let itself be written, and a new one needs a
directory that takes it. -/
def writeRefusal? (files : FileTree) (l : Location) : Option FileError :=
  match files.lookup l with
  | none => (files.guardAt l.dropLast).write
  | some .directory => some .isADirectory
  | some (.file _) => (files.guardAt l).write

/-- Replaces the text of a file, or makes the file in a directory that is there. -/
def writeText (files : FileTree) (cwd : Location) (p : Path) (t : Text) : Except FileError FileTree := do
  let l ← files.resolve cwd p
  match files.writeRefusal? l with
  | some refusal => .error refusal
  | none => .ok (files.insert l (.file (.text t)))

/-- The files of a tree whose content the other tree does not have at their location. -/
def newSince (files before : FileTree) : List (Location × Content) :=
  files.entries.filterMap fun
    | (l, .file content) => if before.lookup l = some (.file content) then none else some (l, content)
    | (_, .directory) => none

end FileTree

end WorkspaceRelease

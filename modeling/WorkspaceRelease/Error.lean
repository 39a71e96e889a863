import WorkspaceRelease.Command
import WorkspaceRelease.Files
import WorkspaceRelease.Text.Quoted
import WorkspaceRelease.Toml.Document

/-!
Why a release stops.
-/

namespace WorkspaceRelease

inductive RootFault where
  | unreadable (cause : FileError)
  | notToml (fault : Toml.Fault)
  | noMembers
  /-- A member that is no string, as it is written. -/
  | notAString (written : Text)
  deriving DecidableEq, Repr

def RootFault.message : RootFault → Text
  | .unreadable cause => cause.message
  | .notToml fault => fault.message
  | .noMembers => "missing `workspace.members` array".toList
  | .notAString written => "member ".toList ++ written ++ " is not a string".toList

inductive ReleaseError where
  | configRead (path : Path) (cause : FileError)
  | emptyVersion (path : Path)
  | rootManifest (path : Path) (fault : RootFault)
  | manifestRead (path : Path) (cause : FileError)
  | manifestParse (path : Path) (fault : Toml.Fault)
  | noPackage (path : Path)
  | manifestWrite (path : Path) (cause : FileError)
  | commandSpawn (command : Text) (cause : Text)
  | commandFailed (command : Text) (status : ExitStatus)
  deriving DecidableEq, Repr

def ReleaseError.message : ReleaseError → Text
  | .configRead path cause => "Failed to read ".toList ++ path ++ ": ".toList ++ cause.message
  | .emptyVersion path => "Version file is empty: ".toList ++ path
  | .rootManifest path fault =>
    "Invalid workspace manifest ".toList ++ path ++ ": ".toList ++ fault.message
  | .manifestRead path cause =>
    "Failed to read manifest ".toList ++ path ++ ": ".toList ++ cause.message
  | .manifestParse path fault =>
    "Failed to parse manifest ".toList ++ path ++ ": ".toList ++ fault.message
  | .noPackage path => "Invalid manifest ".toList ++ path ++ ": missing [package] table".toList
  | .manifestWrite path cause =>
    "Failed to write manifest ".toList ++ path ++ ": ".toList ++ cause.message
  | .commandSpawn command cause => "Failed to run `".toList ++ command ++ "`: ".toList ++ cause
  | .commandFailed command status => '\x60' :: command ++ "` failed with ".toList ++ status.display

/-- An error with its parts, for the log. -/
def ReleaseError.detail : ReleaseError → Text
  | .commandSpawn command cause =>
    "CommandSpawn \x7b command: ".toList ++ command.quoted ++
      ", source: Error \x7b kind: InvalidInput, message: ".toList ++ cause.quoted ++ " \x7d \x7d".toList
  | .commandFailed command status =>
    "CommandFailed \x7b command: ".toList ++ command.quoted ++
      ", status: ExitStatus(unix_wait_status(".toList ++ Text.ofNat status.word ++ ")) \x7d".toList
  | e => e.message

end WorkspaceRelease

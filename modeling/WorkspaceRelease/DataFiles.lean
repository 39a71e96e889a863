import WorkspaceRelease.Effect
import WorkspaceRelease.Text.Lines

/-!
The two data files of a workspace: the version of the release, and the order in which its packages
are published.
-/

namespace WorkspaceRelease

variable {σ : Type}

def versionFile : Path := "version.txt".toList

def publishOrderFile : Path := "publish-order.txt".toList

/-- The version in the text of its file, if there is anything but blank space. -/
def versionIn? (t : Text) : Option Text :=
  match t.trim with
  | [] => none
  | version => some version

/-- Blank lines and lines that start with `#` name no package. -/
def isPackageLine (line : Text) : Bool := !line.isEmpty && line.head? ≠ some '#'

def publishOrderIn (t : Text) : List Text := (t.lines.map Text.trim).filter isPackageLine

def loadVersion (workspace : Path) : ReleaseM σ Text := do
  let path := workspace.join versionFile
  match versionIn? (← ReleaseM.readText path (.configRead path)) with
  | none => throw (.emptyVersion path)
  | some version =>
    ReleaseM.log .debug .config ("Loaded version ".toList ++ version ++ " from ".toList ++ path)
    pure version

def loadPublishOrder (workspace : Path) : ReleaseM σ (List Text) := do
  let path := workspace.join publishOrderFile
  let order := publishOrderIn (← ReleaseM.readText path (.configRead path))
  ReleaseM.log .debug .config
    ("Loaded ".toList ++ Text.ofNat order.length ++ " packages from ".toList ++ path)
  pure order

end WorkspaceRelease

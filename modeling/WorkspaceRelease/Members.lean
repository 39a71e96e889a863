import WorkspaceRelease.Effect
import WorkspaceRelease.Toml.Document

/-!
The members of a workspace, from the manifest at its root. All of them are known before any is
touched.
-/

namespace WorkspaceRelease

open Toml

variable {σ : Type}

def manifestFile : Path := "Cargo.toml".toList

/-- The name of a member; the first entry that is no string is at fault. -/
def memberName (n : Node) : Except RootFault Text :=
  match n.string? with
  | some name => .ok name
  | none => .error (.notAString (n.render Margin.none).trim)

def declaredMembers (d : Document) : Except RootFault (List Text) :=
  match ((Entries.find? "workspace".toList d.entries).bind (Node.get? "members".toList)) with
  | some (.array items _ _ _) => items.mapM memberName
  | _ => .error .noMembers

def membersIn (workspace : Path) (t : Text) : Except RootFault (List Path) :=
  match Document.read t with
  | .error fault => .error (.notToml fault)
  | .ok d => (declaredMembers d).map (List.map fun m => (workspace.join m).join manifestFile)

def listMemberManifests (workspace : Path) : ReleaseM σ (List Path) := do
  let root := workspace.join manifestFile
  let t ← ReleaseM.readText root fun cause => .rootManifest root (.unreadable cause)
  match membersIn workspace t with
  | .error fault => throw (.rootManifest root fault)
  | .ok manifests =>
    ReleaseM.log .debug .workspace
      ("Found ".toList ++ Text.ofNat manifests.length ++ " workspace members in ".toList ++ root)
    pure manifests

end WorkspaceRelease

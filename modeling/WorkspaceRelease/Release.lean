import WorkspaceRelease.Config
import WorkspaceRelease.DataFiles
import WorkspaceRelease.Dispatcher
import WorkspaceRelease.Manifest
import WorkspaceRelease.Members

/-!
A release: stamping the version into every member, then tagging, then publishing. Both data files
are read before anything is touched, and nothing is rolled back.
-/

namespace WorkspaceRelease

variable {σ : Type}

/-- Stamps one member and says whether its file changed. -/
def stampMember (c : Config) (version : Text) (manifest : Path) : ReleaseM σ Bool := do
  let setting ← ReleaseM.paint .greenBold "setting version".toList
  ReleaseM.printLine
    (setting ++ " v".toList ++ version ++ " for ".toList ++ manifest.relative c.workspace)
  let outcome ← applyVersion manifest version c.family c.dryRun
  if !outcome.changed then
    ReleaseM.log .debug .release (manifest ++ " already at v".toList ++ version)
  pure outcome.changed

/-- Stamps the members in turn and counts those whose files changed. -/
def stampMembers (c : Config) (version : Text) : List Path → ReleaseM σ Nat
  | [] => pure 0
  | manifest :: manifests => do
    let changed ← stampMember c version manifest
    let count ← stampMembers c version manifests
    pure (if changed then count + 1 else count)

def setVersions (c : Config) (version : Text) : ReleaseM σ Unit := do
  let manifests ← listMemberManifests c.workspace
  let changed ← stampMembers c version manifests
  if !c.dryRun then
    let updated ← ReleaseM.paint .greenBold "✓ Updated".toList
    ReleaseM.printLine
      (updated ++ ' ' :: Text.ofNat changed ++ " of ".toList ++ Text.ofNat manifests.length ++
        " manifests to v".toList ++ version)

def release (c : Config) (executor : Executor σ) : ReleaseM σ Unit := do
  if c.dryRun then
    ReleaseM.printLine (← ReleaseM.paint .yellow "running in dry mode".toList)
  let version ← loadVersion c.workspace
  let order ← loadPublishOrder c.workspace
  if !c.hasAction then
    ReleaseM.printLine "nothing to do :(".toList
  else
    if c.setVersion then
      setVersions c version
    let dispatcher : Dispatcher σ := ⟨executor, c.dryRun, c.keepGoing⟩
    if c.tag then
      dispatcher.tag version
    if c.publish then
      dispatcher.publish order

end WorkspaceRelease

import WorkspaceRelease.Path

/-!
What one run is asked to do.
-/

namespace WorkspaceRelease

def defaultFamily : Text := "enalang".toList

def defaultWorkspace : Path := ['.']

structure Config where
  dryRun : Bool := false
  setVersion : Bool := false
  tag : Bool := false
  publish : Bool := false
  keepGoing : Bool := false
  /-- What the names of the packages of the family start with. -/
  family : Text := defaultFamily
  workspace : Path := defaultWorkspace
  deriving DecidableEq, Repr

def Config.hasAction (c : Config) : Bool := c.setVersion || c.tag || c.publish

end WorkspaceRelease

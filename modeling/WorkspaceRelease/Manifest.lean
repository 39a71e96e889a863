import WorkspaceRelease.Effect
import WorkspaceRelease.Manifest.Stamp

/-!
The manifest of one package: loaded from a file, stamped, and written back where that changes its
text.
-/

namespace WorkspaceRelease

open Toml

variable {σ : Type}

structure Manifest where
  path : Path
  /-- The text that was read. -/
  loaded : Text
  document : Document

namespace Manifest

def render (m : Manifest) : Text := m.document.render

def isModified (m : Manifest) : Bool := m.render != m.loaded

def load (path : Path) : ReleaseM σ Manifest := do
  let loaded ← ReleaseM.readText path (.manifestRead path)
  match Document.read loaded with
  | .ok document => pure { path, loaded, document }
  | .error fault => throw (.manifestParse path fault)

def save (m : Manifest) : ReleaseM σ Unit :=
  ReleaseM.writeText m.path m.render (.manifestWrite m.path)

def withEntries (m : Manifest) (es : List Entry) : Manifest :=
  { m with document := { m.document with entries := es } }

def setPackageVersion? (version : Text) (m : Manifest) : Option Manifest :=
  (Stamp.stampPackage? version m.document.entries).map m.withEntries

def setFamilyVersions (lead version : Text) (m : Manifest) : Manifest :=
  m.withEntries (Stamp.stampFamily lead version m.document.entries)

def familyCount (lead : Text) (m : Manifest) : Nat := Stamp.familyCount lead m.document.entries

/-- What is said of an entry that gets no version. -/
def skipRecord? : Text × Stamp.Outcome → Option LogRecord
  | (_, .stamped) => none
  | (name, .inherited) =>
    some ⟨.debug, .package, "Skipping ".toList ++ name ++ ": inherited from workspace".toList⟩
  | (name, .unsupported) =>
    some ⟨.warn, .package, "Skipping ".toList ++ name ++ ": unsupported dependency format".toList⟩

def familyRecords (lead : Text) (m : Manifest) : List LogRecord :=
  (Stamp.familyOutcomes lead m.document.entries).filterMap skipRecord?

def stampPackage (version : Text) (m : Manifest) : ReleaseM σ Manifest :=
  match m.setPackageVersion? version with
  | some m => pure m
  | none => throw (.noPackage m.path)

/-- Stamps the family and says which entries it skips. -/
def stampFamily (lead version : Text) (m : Manifest) : ReleaseM σ (Manifest × Nat) := do
  (m.familyRecords lead).forM fun r => ReleaseM.emit (.log r)
  pure (m.setFamilyVersions lead version, m.familyCount lead)

end Manifest

structure StampOutcome where
  dependencies : Nat
  changed : Bool
  deriving DecidableEq, Repr

def stampedRecord (path : Path) (o : StampOutcome) : Text :=
  path ++ ": stamped ".toList ++ Text.ofNat o.dependencies ++ " family dependencies (changed: ".toList ++
    (if o.changed then "true".toList else "false".toList) ++ [')']

/-- Stamps the manifest at a path. It is written only in a real run that changes its text. -/
def applyVersion (path : Path) (version lead : Text) (dryRun : Bool) : ReleaseM σ StampOutcome := do
  let m ← Manifest.load path
  let m ← m.stampPackage version
  let (m, dependencies) ← m.stampFamily lead version
  let outcome : StampOutcome := { dependencies, changed := m.isModified }
  ReleaseM.log .debug .package (stampedRecord path outcome)
  if dryRun then
    ReleaseM.log .debug .package ("Dry run, not writing ".toList ++ path)
  else if outcome.changed then
    m.save
  pure outcome

end WorkspaceRelease

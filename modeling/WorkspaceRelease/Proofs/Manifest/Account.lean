import WorkspaceRelease.Manifest
import WorkspaceRelease.Proofs.Effect
import WorkspaceRelease.Proofs.Manifest.Paths
import WorkspaceRelease.Proofs.Manifest.Places
import WorkspaceRelease.Proofs.Toml.Reading

/-!
The account of a stamp. Every requirement of the family is counted or has one record that says why it is not, and
which of the two depends on what the manifest says and not on how it is written.
-/

namespace WorkspaceRelease

open Toml

variable {σ : Type}

namespace Stamp

/-- What becomes of a requirement, by what it says. -/
def outcomeOf : Data → Outcome
  | .scalar (.string _) => .stamped
  | .map fields =>
    match fields.lookup "workspace".toList with
    | some (.scalar (.boolean true)) => .inherited
    | _ => .stamped
  | _ => .unsupported

theorem outcomeOf_data (n : Node) : outcomeOf n.data = outcome n := by
  cases n with
  | scalar data written pad => cases data <;> rfl
  | array | tables => rfl
  | table form es =>
    rw [Node.data, outcomeOf, outcome]
    split
    next hinherits => rw [if_pos (inherits_iff_data.mpr hinherits)]
    next hown =>
      rw [if_neg]
      exact fun hinherits => hown (inherits_iff_data.mp hinherits)

theorem RequirementSlot.outcomeOf {e : Data} {path : List Step} (h : RequirementSlot e path) :
    outcomeOf e = .stamped := by
  cases h with
  | string s => rfl
  | @field fields hown =>
    rw [Stamp.outcomeOf]
    split
    next hinherits => exact absurd hinherits hown
    next => rfl

theorem exists_requirementSlot {e : Data} (h : outcomeOf e = .stamped) : ∃ path, RequirementSlot e path := by
  cases e with
  | scalar s =>
    cases s with
    | string s => exact ⟨_, .string s⟩
    | integer | float | boolean | dateTime => contradiction
  | list items => contradiction
  | map fields =>
    refine ⟨_, .field fun hinherits => ?_⟩
    rw [outcomeOf, hinherits] at h
    contradiction

def inheritedRecord (name : Text) : LogRecord :=
  ⟨.debug, .package, "Skipping ".toList ++ name ++ ": inherited from workspace".toList⟩

def unsupportedRecord (name : Text) : LogRecord :=
  ⟨.warn, .package, "Skipping ".toList ++ name ++ ": unsupported dependency format".toList⟩

/-- What is said of the places that get no version. -/
def skipRecords (s : List (Place × Outcome)) : List LogRecord :=
  s.filterMap fun (p, o) => Manifest.skipRecord? (p.name, o)

section Records

variable {s : List (Place × Outcome)}

theorem debug_skipRecords : (skipRecords s).filter (fun r => r.level = .debug) =
    (s.filter fun (_, o) => o = .inherited).map fun (p, _) => inheritedRecord p.name := by
  induction s with
  | nil => rfl
  | cons e s ih =>
    obtain ⟨p, o⟩ := e
    cases o with
    | stamped | unsupported => exact ih
    | inherited => exact congrArg (inheritedRecord p.name :: ·) ih

theorem warn_skipRecords : (skipRecords s).filter (fun r => r.level = .warn) =
    (s.filter fun (_, o) => o = .unsupported).map fun (p, _) => unsupportedRecord p.name := by
  induction s with
  | nil => rfl
  | cons e s ih =>
    obtain ⟨p, o⟩ := e
    cases o with
    | stamped | inherited => exact ih
    | unsupported => exact congrArg (unsupportedRecord p.name :: ·) ih

theorem countP_add_length_skipRecords :
    (s.countP fun (_, o) => o = .stamped) + (skipRecords s).length = s.length := by
  induction s with
  | nil => rfl
  | cons e s ih =>
    obtain ⟨p, o⟩ := e
    cases o with
    | stamped =>
      have hrecords : skipRecords ((p, .stamped) :: s) = skipRecords s := rfl
      rw [hrecords, List.countP_cons_of_pos (by simp), List.length_cons]
      omega
    | inherited =>
      have hrecords : skipRecords ((p, .inherited) :: s) = inheritedRecord p.name :: skipRecords s := rfl
      rw [hrecords, List.countP_cons_of_neg (by simp), List.length_cons, List.length_cons]
      omega
    | unsupported =>
      have hrecords : skipRecords ((p, .unsupported) :: s) = unsupportedRecord p.name :: skipRecords s := rfl
      rw [hrecords, List.countP_cons_of_neg (by simp), List.length_cons, List.length_cons]
      omega

end Records

section Slots

variable {lead version : Text} {d : Data} {path : List Step}

/-- The versions of a stamp of the family alone. -/
def familyVersions (lead version : Text) : Versions := { stampVersions lead version with package := none }

/-- A stamp of the family writes at the places that the lead selects, and there where the requirement has its
version. -/
theorem versionsSlot_family {v : Text} : VersionsSlot (familyVersions lead version) d path v ↔
    (∃ p e rest, Place.Covered lead p ∧ d.at? p.path = some e ∧ RequirementSlot e rest ∧ path = p.path ++ rest) ∧
      v = version := by
  constructor
  · intro h
    cases h with
    | package h => simp [familyVersions] at h
    | own h =>
      obtain ⟨table, name, e, rest, htable, hname, hat, hrest, rfl⟩ := sectionsAt_iff_exists.mp h
      obtain ⟨hlead, rfl⟩ := stampVersions_family.mp hname
      exact ⟨⟨⟨none, table, name⟩, e, rest, ⟨htable, hlead⟩, hat, hrest, rfl⟩, rfl⟩
    | target he h =>
      obtain ⟨target, table, name, e, rest, htable, hname, hat, hrest, rfl⟩ := targetsAt_iff_exists.mp h
      obtain ⟨hlead, rfl⟩ := stampVersions_family.mp hname
      exact ⟨⟨⟨some target, table, name⟩, e, rest, ⟨htable, hlead⟩, (congrArg (Option.bind · _) he).trans hat, hrest,
        rfl⟩, rfl⟩
  · rintro ⟨⟨⟨target?, table, name⟩, e, rest, ⟨htable, hlead⟩, hat, hrest, rfl⟩, rfl⟩
    have hname : (familyVersions lead v).family name = some v := stampVersions_family.mpr ⟨hlead, rfl⟩
    cases target? with
    | none => exact .own (sectionsAt_iff_exists.mpr ⟨table, name, e, rest, htable, hname, hat, hrest, rfl⟩)
    | some target =>
      obtain ⟨targets, he, hat⟩ := Option.bind_eq_some_iff.mp hat
      exact .target he (targetsAt_iff_exists.mpr ⟨target, table, name, e, rest, htable, hname, hat, hrest, rfl⟩)

/-- The place of the version in a requirement that is counted. -/
def CountedSlot (d : Data) (split : List (Place × Outcome)) (path : List Step) : Prop :=
  ∃ p e rest, (p, .stamped) ∈ split ∧ d.at? p.path = some e ∧ RequirementSlot e rest ∧ path = p.path ++ rest

end Slots

end Stamp

namespace Manifest

open Stamp

/-- The account of a stamp. The split is a list of all requirements of the family, each once and each with what
becomes of it. -/
structure Accounted (lead : Text) (d : Data) (count : Nat) (records : List LogRecord)
    (split : List (Place × Outcome)) : Prop where
  once : (split.map Prod.fst).Nodup
  covered : ∀ p o, (p, o) ∈ split ↔ p.Covered lead ∧ ∃ e, d.at? p.path = some e ∧ outcomeOf e = o
  stamped : count = split.countP fun (_, o) => o = .stamped
  inherited : records.filter (fun r => r.level = .debug) =
    (split.filter fun (_, o) => o = .inherited).map fun (p, _) => inheritedRecord p.name
  unsupported : records.filter (fun r => r.level = .warn) =
    (split.filter fun (_, o) => o = .unsupported).map fun (p, _) => unsupportedRecord p.name
  total : count + records.length = split.length

theorem familyRecords_eq (lead : Text) (m : Manifest) :
    m.familyRecords lead = skipRecords (split lead m.document.root) := by
  rw [familyRecords, familyOutcomes_eq, List.filterMap_map]
  rfl

theorem runIn_stampFamily (lead version : Text) (m : Manifest) (w : World σ) :
    (m.stampFamily lead version).runIn w = (.ok (m.setFamilyVersions lead version, m.familyCount lead),
      w.record ((m.familyRecords lead).map fun r => .output (.log r))) := by
  rw [stampFamily, ReleaseM.runIn_bind_ok (ReleaseM.runIn_logAll _ w), ReleaseM.runIn_pure]

theorem accounted_split {m : Manifest} (h : distinctEntries m.document.entries) (lead : Text) :
    Accounted lead m.document.data (m.familyCount lead) (m.familyRecords lead) (split lead m.document.root) where
  once := nodup_split h
  covered p o := by
    have hroot : m.document.root.Distinct := h
    have hdata : m.document.data.at? p.path = (m.document.root.at? p.path).map Node.data :=
      at?_data m.document.root p.path
    rw [mem_split hroot, hdata]
    simp only [Option.map_eq_some_iff]
    constructor
    · rintro ⟨hcovered, n, hn, rfl⟩
      exact ⟨hcovered, n.data, ⟨n, hn, rfl⟩, outcomeOf_data n⟩
    · rintro ⟨hcovered, _, ⟨n, hn, rfl⟩, rfl⟩
      exact ⟨hcovered, n, hn, (outcomeOf_data n).symm⟩
  stamped := familyCount_eq m.document.entries
  inherited := by rw [familyRecords_eq, debug_skipRecords]
  unsupported := by rw [familyRecords_eq, warn_skipRecords]
  total := by
    rw [familyRecords_eq, ← countP_add_length_skipRecords]
    congr 1
    exact familyCount_eq m.document.entries

/-- The counted requirements are those that get the version: each of them has a place for it, and nothing is written
anywhere else. -/
structure Delivered (version : Text) (d after : Data) (split : List (Place × Outcome)) : Prop where
  counted : ∀ p, (p, .stamped) ∈ split → ∃ rest, CountedSlot d split (p.path ++ rest)
  changes : Changes version (CountedSlot d split) (some d) (some after)

theorem delivered_split {m : Manifest} (h : distinctEntries m.document.entries) (lead version : Text) :
    Delivered version m.document.data (m.setFamilyVersions lead version).document.data
      (split lead m.document.root) where
  counted p hp := by
    obtain ⟨-, e, he, hcounted⟩ := ((accounted_split h lead).covered p .stamped).mp hp
    obtain ⟨rest, hrest⟩ := exists_requirementSlot hcounted
    exact ⟨rest, p, e, rest, hp, he, hrest, rfl⟩
  changes := by
    have hcarry : (m.setFamilyVersions lead version).document = (familyVersions lead version).carry m.document := by
      rw [setFamilyVersions, withEntries, stampFamily_eq_carryFamily]
      rfl
    rw [hcarry, changes_iff_writes]
    refine (writes_carry (familyVersions lead version) (.inl rfl)).congr fun path v => ?_
    rw [versionsSlot_family]
    refine and_congr_left fun _ => exists_congr fun p => exists_congr fun e => exists_congr fun rest => ?_
    rw [(accounted_split h lead).covered p .stamped]
    constructor
    · rintro ⟨⟨hcovered, -⟩, he, hrest, hpath⟩
      exact ⟨hcovered, he, hrest, hpath⟩
    · rintro ⟨hcovered, he, hrest, hpath⟩
      exact ⟨⟨hcovered, e, he, hrest.outcomeOf⟩, he, hrest, hpath⟩

theorem stampFamily_account {m : Manifest} (h : distinctEntries m.document.entries) (lead version : Text)
    (w : World σ) :
    (m.stampFamily lead version).runIn w = (.ok (m.setFamilyVersions lead version, m.familyCount lead),
        w.record ((m.familyRecords lead).map fun r => .output (.log r))) ∧
      Accounted lead m.document.data (m.familyCount lead) (m.familyRecords lead) (split lead m.document.root) ∧
      Delivered version m.document.data (m.setFamilyVersions lead version).document.data
        (split lead m.document.root) ∧
      ∀ other : Manifest, distinctEntries other.document.entries → Document.Agree false m.document other.document →
        (split lead other.document.root).Perm (split lead m.document.root) ∧
        other.familyCount lead = m.familyCount lead ∧
        (other.familyRecords lead).Perm (m.familyRecords lead) := by
  refine ⟨runIn_stampFamily lead version m w, accounted_split h lead, delivered_split h lead version, ?_⟩
  intro other hother hagree
  have hsplit : (split lead other.document.root).Perm (split lead m.document.root) := perm_split hother h hagree.symm
  refine ⟨hsplit, familyCount_agree hother h hagree.symm, ?_⟩
  rw [familyRecords_eq, familyRecords_eq]
  exact hsplit.filterMap _

def mixedManifest : Text :=
  ("[dependencies]\nena-a = \"0\"\nena-b = \x7b workspace = true \x7d\nena-c = 1\nown = \"0\"\n" ++
    "[dev-dependencies]\nena-a.path = \"a\"\n[target.x.dependencies.ena-a]\n").toList

def mixedDocument : Document :=
  ⟨[bareHeader 1 "dependencies"
      [lineEntry "ena-a" ['0'], (bareKey "ena-b" [' '], inheritedNode),
        (bareKey "ena-c" [' '], spacedNode (.integer 1) ['1'] [' '] []), lineEntry "own" ['0']],
    bareHeader 2 "dev-dependencies" [dottedEntry "ena-a" [lineEntry "path" ['a']]],
    implicitEntry "target" [implicitEntry "x" [implicitEntry "dependencies" [bareHeader 3 "ena-a" []]]]], []⟩

/-- Three of five requirements are counted, under one name in three sections. -/
example : (split "ena".toList mixedDocument.root).map (fun (p, o) => (p.target?, o)) =
    [(none, .stamped), (none, .inherited), (none, .unsupported), (none, .stamped), (some ['x'], .stamped)] := by
  decide +kernel

set_option maxRecDepth 10000 in
theorem stampFamily_account_mixed :
    let m : Manifest := ⟨manifestFile, mixedManifest, mixedDocument⟩
    let w : World Unit := .fresh {}
    Document.read mixedManifest = .ok mixedDocument ∧ distinctEntries mixedDocument.entries ∧
      (m.stampFamily "ena".toList ['1']).runIn w =
        (.ok (m.setFamilyVersions "ena".toList ['1'], m.familyCount "ena".toList),
          w.record ((m.familyRecords "ena".toList).map fun r => .output (.log r))) ∧
      Accounted "ena".toList m.document.data (m.familyCount "ena".toList) (m.familyRecords "ena".toList)
        (split "ena".toList m.document.root) ∧
      Delivered ['1'] m.document.data (m.setFamilyVersions "ena".toList ['1']).document.data
        (split "ena".toList m.document.root) ∧
      ∀ other : Manifest, distinctEntries other.document.entries → Document.Agree false m.document other.document →
        (split "ena".toList other.document.root).Perm (split "ena".toList m.document.root) ∧
        other.familyCount "ena".toList = m.familyCount "ena".toList ∧
        (other.familyRecords "ena".toList).Perm (m.familyRecords "ena".toList) := by
  have hread : Document.read mixedManifest = .ok mixedDocument := rfl
  have hdistinct : distinctEntries mixedDocument.entries := distinct_read hread
  exact ⟨hread, hdistinct, stampFamily_account (m := ⟨manifestFile, mixedManifest, mixedDocument⟩) hdistinct _ _ _⟩

end Manifest

end WorkspaceRelease

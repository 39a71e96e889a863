import WorkspaceRelease.Proofs.Manifest.Written
import WorkspaceRelease.Proofs.Toml.Samples

/-!
A stamp, path by path: where the version goes in the data of a manifest, whatever the syntax of its tables, and
that nothing else changes.
-/

namespace WorkspaceRelease

open Toml

namespace Stamp

variable {lead version : Text}

/-- The one version of a stamp, for the requirements that its lead selects. -/
def stampVersions (lead version : Text) : Versions :=
  ⟨some version, fun name => if lead.isPrefixOf name then some version else none⟩

theorem stampDocument?_eq_carry {d stamped : Document} (h : stampDocument? version lead d = some stamped) :
    stamped = (stampVersions lead version).carry d := by
  obtain ⟨form, inner, hfind, rfl⟩ := stampDocument?_eq_some.mp h
  rw [stampFamily_eq_carryFamily, Versions.carry, stampVersions, carryPackage, stampPackage?_eq version hfind,
    Option.getD_some]

theorem stampVersions_family {name v : Text} :
    (stampVersions lead version).family name = some v ↔ lead <+: name ∧ v = version := by
  change (if lead.isPrefixOf name then some version else none) = some v ↔ _
  by_cases h : lead <+: name
  · rw [if_pos (List.isPrefixOf_iff_prefix.mpr h), Option.some.injEq]
    exact ⟨fun hv => ⟨h, hv.symm⟩, fun hv => hv.2.symm⟩
  · rw [if_neg (mt List.isPrefixOf_iff_prefix.mp h)]
    exact ⟨fun hv => absurd hv (by simp), fun hv => absurd hv.1 h⟩

theorem versionsSlot_stamp {d : Data} {path : List Step} {v : Text} :
    VersionsSlot (stampVersions lead version) d path v ↔ VersionSlot lead d path ∧ v = version := by
  constructor
  · intro h
    cases h with
    | package h => exact ⟨.package, (Option.some.inj h).symm⟩
    | own h =>
      obtain ⟨name, hname⟩ := h.exists
      exact ⟨.own (h.mono fun _ hv => (stampVersions_family.mp hv).1), (stampVersions_family.mp hname).2⟩
    | target he h =>
      obtain ⟨name, hname⟩ := h.exists
      exact ⟨.target he (h.mono fun _ hv => (stampVersions_family.mp hv).1), (stampVersions_family.mp hname).2⟩
  · rintro ⟨h, rfl⟩
    have hselected (name : Text) (hlead : lead <+: name) : (stampVersions lead v).family name = some v :=
      stampVersions_family.mpr ⟨hlead, rfl⟩
    cases h with
    | package => exact .package rfl
    | own h => exact .own (SectionsAt.mono hselected h)
    | target he h => exact .target he (TargetsAt.mono hselected h)

theorem changes_stampDocument {d stamped : Document} (h : stampDocument? version lead d = some stamped) :
    Changes version (VersionSlot lead d.data) (some d.data) (some stamped.data) := by
  obtain ⟨form, inner, hfind, -⟩ := stampDocument?_eq_some.mp h
  rw [stampDocument?_eq_carry h]
  exact changes_iff_writes.mpr
    ((writes_carry (stampVersions lead version) (.inr ⟨form, inner, hfind⟩)).congr fun _ _ => versionsSlot_stamp.symm)

end Stamp

namespace Manifest

variable {σ : Type} {m : Manifest} {fields : List (Text × Data)}

theorem find?_of_data {d : Document} {name : Text} (h : d.data.get? name = some (.map fields)) :
    ∃ form es, Entries.find? name d.entries = some (.table form es) := by
  rw [Stamp.get?_data, Option.map_eq_some_iff] at h
  obtain ⟨n, hn, hdata⟩ := h
  cases n with
  | table form es => exact ⟨form, es, hn⟩
  | scalar | array | tables => exact nomatch hdata

theorem stamp_changes (hpackage : m.document.data.get? "package".toList = some (.map fields)) (lead version : Text)
    (w : World σ) :
    ∃ stamped n, ((m.stampPackage version >>= fun m => m.stampFamily lead version).runIn w).1 = .ok (stamped, n) ∧
      Changes version (Stamp.VersionSlot lead m.document.data) (some m.document.data)
        (some stamped.document.data) := by
  obtain ⟨form, inner, hfind⟩ := find?_of_data hpackage
  let es := Entries.replace "package".toList (.table form (Stamp.setVersion version inner)) m.document.entries
  have hes : Stamp.stampPackage? version m.document.entries = some es := by
    simp only [Stamp.stampPackage?, hfind, Option.bind_eq_bind, Option.bind_some, es]
  have hstamp : Stamp.stampDocument? version lead m.document =
      some ⟨Stamp.stampFamily lead version es, m.document.trailing⟩ :=
    Stamp.stampDocument?_eq_some.mpr ⟨form, inner, hfind, rfl⟩
  refine ⟨(m.withEntries es).setFamilyVersions lead version, (m.withEntries es).familyCount lead, ?_,
    Stamp.changes_stampDocument hstamp⟩
  simp only [ReleaseM.runIn_bind, stampPackage, setPackageVersion?_eq, hes, Option.map_some, ReleaseM.runIn_pure,
    stampFamily, ReleaseM.runIn_logAll]

/-- Tables by dotted keys, by headers, in braces and as parents of headers only. -/
def variedManifest : Text :=
  ("package.version = \"0\"\n[dependencies]\nena-a = \x7b path = \"a\" \x7d\n" ++
    "[target.x.dependencies.ena-b]\n").toList

def variedDocument : Document :=
  ⟨[dottedEntry "package" [lineEntry "version" ['0']],
    bareHeader 1 "dependencies"
      [(bareKey "ena-a" [' '], bracedNode [] [(spacedKey "path" [' '] [' '], quotedNode ['a'] [' '] [' '])])],
    implicitEntry "target" [implicitEntry "x" [implicitEntry "dependencies" [bareHeader 2 "ena-b" []]]]], []⟩

set_option maxRecDepth 10000 in
theorem stamp_changes_varied :
    Document.read variedManifest = .ok variedDocument ∧
      (∃ fields, variedDocument.data.get? "package".toList = some (.map fields)) ∧
      ∃ stamped n, (((⟨manifestFile, variedManifest, variedDocument⟩ : Manifest).stampPackage ['1'] >>= fun m =>
          m.stampFamily "ena".toList ['1']).runIn (World.fresh {})).1 = .ok (stamped, n) ∧
        Changes ['1'] (Stamp.VersionSlot "ena".toList variedDocument.data) (some variedDocument.data)
          (some stamped.document.data) :=
  ⟨rfl, ⟨_, rfl⟩, stamp_changes rfl _ _ _⟩

end Manifest

end WorkspaceRelease

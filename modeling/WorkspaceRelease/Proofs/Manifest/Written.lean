import WorkspaceRelease.Proofs.Manifest.Carry

/-!
What a document says where versions are carried into it, path by path: each place has its version, and nothing
else changes.
-/

namespace WorkspaceRelease.Stamp

open Toml

def TableAt (selected : Text → Prop) : Data → List Step → Prop :=
  Below fun name e path => selected name ∧ RequirementSlot e path

def SectionsAt (selected : Text → Prop) : Data → List Step → Prop :=
  Below fun name table path => name ∈ dependencySections ∧ TableAt selected table path

def TargetsAt (selected : Text → Prop) : Data → List Step → Prop :=
  Below fun _ target path => SectionsAt selected target path

/-- The places that have a version, each with its own. -/
inductive VersionsSlot (vs : Versions) (d : Data) : List Step → Text → Prop
  | package {version : Text} : vs.package = some version →
    VersionsSlot vs d [.key "package".toList, .key versionKey] version
  | own {path : List Step} {version : Text} : SectionsAt (vs.family · = some version) d path →
    VersionsSlot vs d path version
  | target {targets : Data} {path : List Step} {version : Text} : d.child? (.key "target".toList) = some targets →
    TargetsAt (vs.family · = some version) targets path → VersionsSlot vs d (.key "target".toList :: path) version

section Selected

variable {selected selected' : Text → Prop} {d : Data} {path : List Step}

theorem SectionsAt.mono (h : ∀ name, selected name → selected' name) (hpath : SectionsAt selected d path) :
    SectionsAt selected' d path := by
  obtain ⟨he, hname, hinner, hselected, hrequirement⟩ := hpath
  exact .field he ⟨hname, .field hinner ⟨h _ hselected, hrequirement⟩⟩

theorem SectionsAt.exists (hpath : SectionsAt selected d path) : ∃ name, selected name := by
  obtain ⟨-, -, -, hselected, -⟩ := hpath
  exact ⟨_, hselected⟩

theorem TargetsAt.mono (h : ∀ name, selected name → selected' name) (hpath : TargetsAt selected d path) :
    TargetsAt selected' d path := by
  obtain ⟨he, hinner⟩ := hpath
  exact .field he (hinner.mono h)

theorem TargetsAt.exists (hpath : TargetsAt selected d path) : ∃ name, selected name := by
  obtain ⟨-, hinner⟩ := hpath
  exact hinner.exists

theorem sectionsAt_iff_exists : SectionsAt selected d path ↔
    ∃ table name e rest, table ∈ dependencySections ∧ selected name ∧
      d.at? [.key table, .key name] = some e ∧ RequirementSlot e rest ∧ path = [.key table, .key name] ++ rest := by
  constructor
  · rintro ⟨hinner, htable, he, hname, hrest⟩
    exact ⟨_, _, _, _, htable, hname, by simp [Data.at?, hinner, he], hrest, rfl⟩
  · rintro ⟨table, name, e, rest, htable, hname, hat, hrest, rfl⟩
    obtain ⟨inner, hinner, hat⟩ := Option.bind_eq_some_iff.mp hat
    obtain ⟨_, he, hat⟩ := Option.bind_eq_some_iff.mp hat
    obtain rfl := Option.some.inj hat
    exact .field hinner ⟨htable, .field he ⟨hname, hrest⟩⟩

theorem targetsAt_iff_exists : TargetsAt selected d path ↔
    ∃ target table name e rest, table ∈ dependencySections ∧ selected name ∧
      d.at? [.key target, .key table, .key name] = some e ∧ RequirementSlot e rest ∧
      path = [.key target, .key table, .key name] ++ rest := by
  constructor
  · rintro ⟨htarget, hpath⟩
    obtain ⟨table, name, e, rest, htable, hname, hat, hrest, rfl⟩ := sectionsAt_iff_exists.mp hpath
    exact ⟨_, table, name, e, rest, htable, hname, by rw [Data.at?, htarget]; exact hat, hrest, rfl⟩
  · rintro ⟨target, table, name, e, rest, htable, hname, hat, hrest, rfl⟩
    obtain ⟨t, htarget, hat⟩ := Option.bind_eq_some_iff.mp hat
    exact .field htarget (sectionsAt_iff_exists.mpr ⟨table, name, e, rest, htable, hname, hat, hrest, rfl⟩)

end Selected

section Levels

variable {family : Text → Option Text}

theorem writes_carryRequirement (version? : Option Text) (n : Node) :
    Writes (fun s v => version? = some v ∧ RequirementSlot n.data s) (some n.data)
      (some (carryRequirement version? n).data) := by
  cases version? with
  | none => exact .refl (fun s v h => nomatch h.1) _
  | some version =>
    refine (changes_iff_writes.mp (changes_stampRequirement version n)).congr fun s v => ?_
    rw [Option.some.injEq, and_comm, eq_comm]

theorem writes_carryTable (n : Node) :
    Writes (fun s v => TableAt (family · = some v) n.data s) (some n.data)
      (some (n.mapEntries (carryTable family)).data) :=
  .mapEntries (fun v name e path => family name = some v ∧ RequirementSlot e path)
    (find?_map fun name n => carryRequirement (family name) n) (fun name n => writes_carryRequirement (family name) n) n

theorem writes_carrySections (n : Node) :
    Writes (fun s v => SectionsAt (family · = some v) n.data s) (some n.data)
      (some (n.mapEntries (carrySections family)).data) := by
  refine .mapEntries (fun v name table path => name ∈ dependencySections ∧ TableAt (family · = some v) table path)
    (find?_map fun name n => if dependencySections.contains name then n.mapEntries (carryTable family) else n)
    (fun name n => ?_) n
  by_cases h : name ∈ dependencySections
  · rw [if_pos (List.contains_iff_mem.mpr h)]
    exact (writes_carryTable n).congr fun s v => and_iff_right h
  · rw [if_neg (mt List.contains_iff_mem.mp h)]
    exact .refl (fun s v hs => h hs.1) _

theorem writes_targets (n : Node) :
    Writes (fun s v => TargetsAt (family · = some v) n.data s) (some n.data)
      (some (n.mapEntries (List.map fun (k, t) => (k, t.mapEntries (carrySections family)))).data) :=
  .mapEntries (fun v _ target path => SectionsAt (family · = some v) target path)
    (find?_map fun _ t => t.mapEntries (carrySections family)) (fun _ t => writes_carrySections t) n

end Levels

section Root

variable {vs : Versions} {name version : Text} {d : Data} {path : List Step}

theorem sectionsAt_key {selected : Text → Prop} : SectionsAt selected d (.key name :: path) ↔
    name ∈ dependencySections ∧ ∃ e, d.get? name = some e ∧ TableAt selected e path := by
  rw [SectionsAt, below_iff]
  constructor
  · rintro ⟨e, he, hname, hpath⟩
    exact ⟨hname, e, he, hpath⟩
  · rintro ⟨hname, e, he, hpath⟩
    exact ⟨e, he, hname, hpath⟩

theorem versionsSlot_key : VersionsSlot vs d (.key name :: path) version ↔
    (name = "package".toList ∧ path = [.key versionKey] ∧ vs.package = some version) ∨
      SectionsAt (vs.family · = some version) d (.key name :: path) ∨
      (name = "target".toList ∧ ∃ e, d.get? name = some e ∧ TargetsAt (vs.family · = some version) e path) := by
  constructor
  · intro h
    cases h with
    | package h => exact .inl ⟨rfl, rfl, h⟩
    | own h => exact .inr (.inl h)
    | target he h => exact .inr (.inr ⟨rfl, _, he, h⟩)
  · rintro (⟨rfl, rfl, h⟩ | h | ⟨rfl, e, he, h⟩)
    · exact .package h
    · exact .own h
    · exact .target he h

theorem get?_data (d : Document) (name : Text) : d.data.get? name = (Entries.find? name d.entries).map Node.data :=
  lookup_entryData name d.entries

theorem writes_carryRoot {d : Document} (hpackage : name ≠ "package".toList) {n : Node}
    (hfind : Entries.find? name d.entries = some n) :
    Writes (fun path v => VersionsSlot vs d.data (.key name :: path) v) (some n.data)
      (some (carryRoot vs.family name n).data) := by
  have hget : d.data.get? name = some n.data := by rw [get?_data, hfind, Option.map_some]
  have hne : ∀ group ∈ dependencySections, group ≠ "target".toList := by decide
  rw [carryRoot]
  by_cases hsection : name ∈ dependencySections
  · rw [if_pos (List.contains_iff_mem.mpr hsection)]
    refine (writes_carryTable n).congr fun path v => ?_
    rw [versionsSlot_key, sectionsAt_key]
    simp only [hpackage, hsection, hne name hsection, hget, false_and, true_and, or_false, false_or,
      Option.some.injEq, exists_eq_left']
  · rw [if_neg (mt List.contains_iff_mem.mp hsection)]
    by_cases htarget : name = "target".toList
    · subst htarget
      rw [if_pos rfl]
      refine (writes_targets n).congr fun path v => ?_
      rw [versionsSlot_key, sectionsAt_key]
      simp only [hpackage, hsection, hget, false_and, true_and, false_or, Option.some.injEq, exists_eq_left']
    · rw [if_neg htarget]
      refine .refl (fun path v hpath => ?_) _
      rw [versionsSlot_key, sectionsAt_key] at hpath
      simp only [hpackage, hsection, htarget, false_and, or_false] at hpath

theorem writes_carryPackage {form : TableForm} {inner : List Entry} {es : List Entry}
    (hfind : Entries.find? "package".toList es = some (.table form inner)) (version? : Option Text) :
    ∃ n, Entries.find? "package".toList (carryPackage version? es) = some n ∧
      Writes (fun path v => path = [.key versionKey] ∧ version? = some v) (some (.map (entryData inner)))
        (some n.data) := by
  cases version? with
  | none => exact ⟨_, hfind, .refl (fun s v h => nomatch h.2) _⟩
  | some version =>
    refine ⟨.table form (setVersion version inner), ?_, ?_⟩
    · rw [carryPackage, stampPackage?_eq version hfind, Option.getD_some, Entries.find?_replace_self hfind]
    · have hchanges : Changes version (· = [.key versionKey]) (some (.map (entryData inner)))
          (some (.map (entryData (setVersion version inner)))) :=
        changes_version (fun _ => Iff.rfl) (find?_setVersion version inner) fun name hname =>
          congrArg (Option.map Node.data) (find?_setVersion_of_ne inner hname)
      refine (changes_iff_writes.mp hchanges).congr fun s v => ?_
      rw [Option.some.injEq, eq_comm (a := version)]

theorem writes_carry {d : Document} (vs : Versions) (h : vs.package = none ∨ Packaged d.entries) :
    Writes (VersionsSlot vs d.data) (some d.data) (some (vs.carry d).data) := by
  refine .map (fun path v hpath => ?_) fun name => ?_
  · cases hpath with
    | package => exact ⟨_, _, rfl⟩
    | own hpath =>
      obtain ⟨-, -⟩ := hpath
      exact ⟨_, _, rfl⟩
    | target => exact ⟨_, _, rfl⟩
  · rw [lookup_entryData, lookup_entryData, Versions.carry, find?_carryFamily]
    by_cases hpackage : name = "package".toList
    · subst hpackage
      have hslot (path : List Step) (v : Text) : VersionsSlot vs d.data (.key "package".toList :: path) v ↔
          path = [.key versionKey] ∧ vs.package = some v := by
        have hsection : "package".toList ∉ dependencySections := by decide
        have htarget : "package".toList ≠ "target".toList := by decide
        rw [versionsSlot_key, sectionsAt_key]
        simp only [hsection, htarget, true_and, false_and, or_false]
      have hroot : carryRoot vs.family "package".toList = id := funext carryRoot_package
      rw [hroot, Option.map_id_fun, id_eq]
      rcases h with hnone | ⟨form, inner, hfind⟩
      · rw [hnone, carryPackage]
        refine .refl (fun path v hpath => ?_) _
        exact absurd (((hslot path v).mp hpath).2.symm.trans hnone) (Option.some_ne_none v)
      · obtain ⟨n, hn, hwrites⟩ := writes_carryPackage hfind vs.package
        rw [hfind, hn]
        exact hwrites.congr hslot
    · rw [find?_carryPackage_of_ne hpackage]
      cases hfind : Entries.find? name d.entries with
      | none =>
        refine .refl (fun path v hpath => ?_) none
        rw [versionsSlot_key, sectionsAt_key] at hpath
        simp only [hpackage, get?_data, hfind, Option.map_none, reduceCtorEq, false_and, exists_false, and_false,
          or_false] at hpath
      | some n => exact writes_carryRoot hpackage hfind

end Root

end WorkspaceRelease.Stamp

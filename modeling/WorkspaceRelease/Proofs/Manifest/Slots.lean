import WorkspaceRelease.Proofs.Manifest.Stamp
import WorkspaceRelease.Proofs.Stamping
import WorkspaceRelease.Proofs.Toml.Paths

/-!
The places of the version in the data of a manifest, and what a new version changes in one requirement.
-/

namespace WorkspaceRelease

open Toml

namespace Stamp

/-- A requirement is its version, or has it in a field unless it inherits. -/
inductive RequirementSlot : Data → List Step → Prop
  | string (s : Text) : RequirementSlot (.string s) []
  | field {fields : List (Text × Data)} : fields.lookup "workspace".toList ≠ some (.scalar (.boolean true)) →
    RequirementSlot (.map fields) [.key versionKey]

def TableSlot (lead : Text) : Data → List Step → Prop :=
  Below fun name e path => lead <+: name ∧ RequirementSlot e path

def SectionsSlot (lead : Text) : Data → List Step → Prop :=
  Below fun name table path => name ∈ dependencySections ∧ TableSlot lead table path

def TargetsSlot (lead : Text) : Data → List Step → Prop :=
  Below fun _ target path => SectionsSlot lead target path

/-- The places of the version: that of the package, and those of the requirements of the family in all sections
of the manifest and of its targets. -/
inductive VersionSlot (lead : Text) (d : Data) : List Step → Prop
  | package : VersionSlot lead d [.key "package".toList, .key versionKey]
  | own {path : List Step} : SectionsSlot lead d path → VersionSlot lead d path
  | target {targets : Data} {path : List Step} : d.child? (.key "target".toList) = some targets →
    TargetsSlot lead targets path → VersionSlot lead d (.key "target".toList :: path)

section Listing

def slotsBelow (inner : Text → Data → List (List Step)) : Data → List (List Step)
  | .map fields => fields.flatMap fun (name, _) =>
      ((fields.lookup name).elim [] (inner name)).map (.key name :: ·)
  | _ => []

def requirementSlots : Data → List (List Step)
  | .scalar (.string _) => [[]]
  | .map fields =>
    match fields.lookup "workspace".toList with
    | some (.scalar (.boolean true)) => []
    | _ => [[.key versionKey]]
  | _ => []

def sectionsSlots (lead : Text) : Data → List (List Step) :=
  slotsBelow fun name table =>
    if name ∈ dependencySections then
      slotsBelow (fun name e => if lead.isPrefixOf name then requirementSlots e else []) table
    else []

def versionSlots (lead : Text) (d : Data) : List (List Step) :=
  [.key "package".toList, .key versionKey] ::
    sectionsSlots lead d ++
      slotsBelow (fun name targets =>
        if name = "target".toList then slotsBelow (fun _ target => sectionsSlots lead target) targets else []) d

theorem mem_of_lookup {fields : List (Text × Data)} {name : Text} {e : Data} (h : fields.lookup name = some e) :
    (name, e) ∈ fields := by
  obtain ⟨before, after, rfl, -⟩ := List.lookup_eq_some_iff.mp h
  simp

theorem mem_slotsBelow {list : Text → Data → List (List Step)} {inner : Text → Data → List Step → Prop}
    (h : ∀ name e path, path ∈ list name e ↔ inner name e path) {d : Data} {path : List Step} :
    path ∈ slotsBelow list d ↔ Below inner d path := by
  constructor
  · intro hpath
    cases d with
    | map fields =>
      simp only [slotsBelow, List.mem_flatMap, List.mem_map] at hpath
      obtain ⟨⟨name, _⟩, _, rest, hrest, rfl⟩ := hpath
      cases hlookup : fields.lookup name with
      | none => simp [hlookup] at hrest
      | some e => exact .field hlookup ((h name e rest).mp (by simpa [hlookup] using hrest))
    | scalar | list => simp [slotsBelow] at hpath
  · rintro ⟨he, hrest⟩
    cases d with
    | map fields =>
      have hlookup : fields.lookup _ = some _ := he
      refine List.mem_flatMap.mpr ⟨_, mem_of_lookup hlookup, List.mem_map.mpr ⟨_, ?_, rfl⟩⟩
      simpa [hlookup, h] using hrest
    | scalar | list => exact nomatch he

theorem mem_requirementSlots {d : Data} {path : List Step} : path ∈ requirementSlots d ↔ RequirementSlot d path := by
  constructor
  · intro h
    unfold requirementSlots at h
    split at h
    · obtain rfl := List.mem_singleton.mp h
      exact .string _
    · split at h
      · simp at h
      next hown =>
        obtain rfl := List.mem_singleton.mp h
        exact .field hown
    · simp at h
  · intro h
    cases h with
    | string s => exact List.mem_singleton.mpr rfl
    | @field fields hown =>
      change _ ∈ (match fields.lookup "workspace".toList with
        | some (.scalar (.boolean true)) => []
        | _ => [[Step.key versionKey]])
      split
      next heq => exact absurd heq hown
      next => exact List.mem_singleton.mpr rfl

theorem mem_sectionsSlots {lead : Text} {d : Data} {path : List Step} :
    path ∈ sectionsSlots lead d ↔ SectionsSlot lead d path := by
  refine mem_slotsBelow fun name table path => ?_
  have htable : path ∈ slotsBelow (fun name e => if lead.isPrefixOf name then requirementSlots e else []) table ↔
      TableSlot lead table path := mem_slotsBelow fun name e path => by
    rw [← List.isPrefixOf_iff_prefix]
    split <;> simp_all [mem_requirementSlots]
  split <;> simp_all

theorem mem_versionSlots {lead : Text} {d : Data} {path : List Step} :
    path ∈ versionSlots lead d ↔ VersionSlot lead d path := by
  have htarget : path ∈ slotsBelow (fun name targets =>
      if name = "target".toList then slotsBelow (fun _ target => sectionsSlots lead target) targets else []) d ↔
      Below (fun name targets path => name = "target".toList ∧ TargetsSlot lead targets path) d path :=
    mem_slotsBelow fun name targets path => by
      have htargets : path ∈ slotsBelow (fun _ target => sectionsSlots lead target) targets ↔
          TargetsSlot lead targets path := mem_slotsBelow fun _ _ _ => mem_sectionsSlots
      split <;> simp_all
  rw [versionSlots, List.cons_append, List.mem_cons, List.mem_append, mem_sectionsSlots, htarget]
  constructor
  · rintro (rfl | h | ⟨he, rfl, h⟩)
    · exact .package
    · exact .own h
    · exact .target he h
  · rintro (- | h | ⟨he, h⟩)
    · exact .inl rfl
    · exact .inr (.inl h)
    · exact .inr (.inr ⟨he, rfl, h⟩)

instance (lead : Text) (d : Data) : DecidablePred (VersionSlot lead d) :=
  fun _ => decidable_of_iff _ mem_versionSlots

end Listing

section Version

open Entries

variable {version name : Text}

theorem data_withPad (pad : Padding) (n : Node) : (n.withPad pad).data = n.data := by
  cases n with
  | table form es => cases form <;> rfl
  | scalar | array | tables => rfl

theorem find?_setVersion_of_ne (es : List Entry) (h : name ≠ versionKey) :
    find? name (setVersion version es) = find? name es := by
  unfold setVersion
  cases find? versionKey es with
  | some old => exact find?_replace_of_ne es h
  | none => simp [find?_append, find?, Key.ofName, Ne.symm h]

theorem data_appendVersion (es : List Entry) :
    entryData (appendVersion version es) = entryData es ++ [(versionKey, .string version)] := by
  unfold appendVersion
  cases hlast : es.getLast? with
  | none =>
    obtain rfl := List.getLast?_eq_none_iff.mp hlast
    rfl
  | some e =>
    obtain ⟨init, rfl⟩ := List.getLast?_eq_some_iff.mp hlast
    simp [entryData_eq_map, data_withPad, Key.ofName, versionString, Node.data, Data.string]

theorem data_find?_appendVersion_of_ne (es : List Entry) (h : name ≠ versionKey) :
    (find? name (appendVersion version es)).map Node.data = (find? name es).map Node.data := by
  rw [← lookup_entryData, ← lookup_entryData, data_appendVersion, List.lookup_append]
  have hne : (name == versionKey) = false := beq_eq_false_iff_ne.mpr h
  simp [List.lookup_cons, hne]

theorem data_find?_setTableVersion_of_ne (form : TableForm) (es : List Entry) (h : name ≠ versionKey) :
    (find? name (setTableVersion version form es)).map Node.data = (find? name es).map Node.data := by
  have hinline : (find? name (setInlineVersion version es)).map Node.data = (find? name es).map Node.data := by
    unfold setInlineVersion
    cases find? versionKey es with
    | some old => rw [find?_replace_of_ne es h]
    | none => exact data_find?_appendVersion_of_ne es h
  unfold setTableVersion
  split
  · exact hinline
  · exact hinline
  · rw [find?_setVersion_of_ne es h]

theorem changes_version {es fs : List Entry} {slot : List Step → Prop} (hslot : ∀ s, slot s ↔ s = [.key versionKey])
    (hversion : ∃ pad, find? versionKey fs = some (versionString version pad))
    (hothers : ∀ name, name ≠ versionKey → (find? name fs).map Node.data = (find? name es).map Node.data) :
    Changes version slot (some (.map (entryData es))) (some (.map (entryData fs))) := by
  refine .map (fun s hs => ⟨versionKey, [], (hslot s).mp hs⟩) fun name => ?_
  rw [lookup_entryData, lookup_entryData]
  by_cases h : name = versionKey
  · obtain ⟨pad, hpad⟩ := hversion
    subst h
    rw [hpad]
    refine .string (fun rest => ?_) _
    simp [hslot]
  · rw [hothers name h]
    refine .refl (fun rest hrest => ?_) _
    obtain ⟨hkey, -⟩ := List.cons.inj ((hslot _).mp hrest)
    exact h (Step.key.inj hkey)

end Version

section Requirement

variable {lead version : Text}

theorem data_eq_true {n : Node} : n.data = .scalar (.boolean true) ↔ n.boolean? = some true := by
  cases n with
  | scalar data written pad => cases data <;> simp [Node.data, Node.boolean?]
  | array | table | tables => simp [Node.data, Node.boolean?]

theorem inherits_iff_data {es : List Entry} : inherits es = true ↔
    (entryData es).lookup "workspace".toList = some (.scalar (.boolean true)) := by
  rw [inherits, decide_eq_true_iff, lookup_entryData, Option.bind_eq_some_iff, Option.map_eq_some_iff]
  simp only [data_eq_true]

theorem changes_stampRequirement (version : Text) (n : Node) :
    Changes version (RequirementSlot n.data) (some n.data) (some (stampRequirement version n).data) := by
  match n with
  | .scalar (.string s) written pad =>
    refine .string (fun path => ⟨?_, ?_⟩) _
    · rintro ⟨-⟩
      rfl
    · rintro rfl
      exact .string s
  | .table form es =>
    cases h : inherits es with
    | true =>
      simp only [stampRequirement, h, ↓reduceIte]
      refine .refl (fun path hpath => ?_) _
      cases hpath with
      | field hown => exact hown (inherits_iff_data.mp h)
    | false =>
      simp only [stampRequirement, h, Bool.false_eq_true, ↓reduceIte]
      refine changes_version (fun path => ⟨?_, ?_⟩) (find?_setTableVersion version form es) fun name hname =>
        data_find?_setTableVersion_of_ne form es hname
      · rintro ⟨-⟩
        rfl
      · rintro rfl
        refine .field fun hinherits => ?_
        simp [inherits_iff_data.mpr hinherits] at h
  | .scalar (.integer _) _ _ | .scalar (.float _) _ _ | .scalar (.boolean _) _ _
  | .scalar (.dateTime _) _ _ | .array _ _ _ _ | .tables _ =>
    exact .refl (fun path hpath => nomatch hpath) _

end Requirement

end Stamp

end WorkspaceRelease

import WorkspaceRelease.Proofs.Manifest.Slotwise
import WorkspaceRelease.Proofs.Toml.Overwrite

/-!
A stamp that finds a string at every place of the version. It overwrites these strings in the tree.
-/

namespace WorkspaceRelease.Stamp

open Toml

/-- Every place of the version has a string. -/
def Versioned (lead : Text) (d : Data) : Prop := ∀ path, VersionSlot lead d path → ∃ t, d.at? path = some (.string t)

def isString : Data → Bool
  | .scalar (.string _) => true
  | _ => false

theorem isString_iff {d : Data} : isString d = true ↔ ∃ t, d = .string t := by
  constructor
  · intro h
    unfold isString at h
    split at h
    · exact ⟨_, rfl⟩
    · contradiction
  · rintro ⟨t, rfl⟩
    rfl

theorem versioned_iff {lead : Text} {d : Data} :
    Versioned lead d ↔ ∀ path ∈ versionSlots lead d, (d.at? path).any isString = true := by
  simp only [Versioned, mem_versionSlots, Option.any_eq_true, isString_iff]
  constructor
  · intro h path hpath
    obtain ⟨t, ht⟩ := h path hpath
    exact ⟨_, ht, t, rfl⟩
  · intro h path hpath
    obtain ⟨e, he, t, rfl⟩ := h path hpath
    exact ⟨t, he⟩

instance (lead : Text) (d : Data) : Decidable (Versioned lead d) := decidable_of_iff _ versioned_iff.symm

theorem data_eq_string {n : Node} {t : Text} :
    n.data = .string t ↔ ∃ written pad, n = .scalar (.string t) written pad := by
  cases n with
  | scalar data written pad => simp [Node.data, Data.string]
  | array | table | tables => simp [Node.data, Data.string]

section Levels

variable {version : Text}

theorem find?_of_at? {form : TableForm} {es : List Entry} {name t : Text}
    (h : (Node.table form es).data.at? [.key name] = some (.string t)) :
    ∃ written pad, Entries.find? name es = some (.scalar (.string t) written pad) := by
  have hdata : (Entries.find? name es).map Node.data = some (.string t) := by
    simpa [Data.at?, Data.child?, Data.get?, Node.data, lookup_entryData] using h
  obtain ⟨n, hn, hstring⟩ := Option.map_eq_some_iff.mp hdata
  obtain ⟨written, pad, rfl⟩ := data_eq_string.mp hstring
  exact ⟨written, pad, hn⟩

theorem setTableVersion_eq_overwrite {form : TableForm} {es : List Entry} {hit : List Step → Bool} {t : Text}
    (hes : distinctEntries es) (h : (Node.table form es).data.at? [.key versionKey] = some (.string t))
    (hhit : ∀ path, hit path = true ↔ path = [.key versionKey]) :
    setVersion version es = overwriteEntries hit version es ∧
      setTableVersion version form es = overwriteEntries hit version es := by
  obtain ⟨written, pad, hfind⟩ := find?_of_at? h
  rw [overwriteEntries_eq_replace version hes hfind hhit]
  have hset : setVersion version es =
      Entries.replace versionKey (.scalar (.string version) (encodeString version) pad) es := by
    simp only [setVersion, hfind]
    rfl
  refine ⟨hset, ?_⟩
  unfold setTableVersion
  split
  case h_3 => exact hset
  all_goals
    simp only [setInlineVersion, hfind]
    rfl

theorem overwrites_stampRequirement (version : Text) :
    Overwrites RequirementSlot version (stampRequirement version) := by
  intro n hit hn hhit hstring
  have hmiss (hslot : ∀ path, ¬RequirementSlot n.data path) : n.overwrite hit version = n :=
    overwrite_of_miss (fun path => Bool.eq_false_iff.mpr (mt (hhit path).mp (hslot path))) version n
  match n with
  | .scalar (.string s) written pad =>
    have hself : hit [] = true := (hhit []).mpr (.string s)
    rw [Node.overwrite, hself, if_pos rfl]
    rfl
  | .table form es =>
    cases h : inherits es with
    | true =>
      rw [hmiss fun path hpath => ?_, stampRequirement, h, if_pos rfl]
      cases hpath with
      | field hown => exact hown (inherits_iff_data.mp h)
    | false =>
      have hslot (path : List Step) : RequirementSlot (Node.table form es).data path ↔ path = [.key versionKey] := by
        constructor
        · rintro ⟨-⟩
          rfl
        · rintro rfl
          refine .field fun hinherits => ?_
          simp [inherits_iff_data.mpr hinherits] at h
      obtain ⟨t, ht⟩ := hstring _ ((hslot _).mpr rfl)
      have hset : setTableVersion version form es = overwriteEntries hit version es :=
        (setTableVersion_eq_overwrite hn ht fun path => (hhit path).trans (hslot path)).2
      simp only [Node.overwrite, stampRequirement, h, Bool.false_eq_true, ↓reduceIte, hset]
  | .scalar (.integer _) _ _ | .scalar (.float _) _ _ | .scalar (.boolean _) _ _
  | .scalar (.dateTime _) _ _ | .array _ _ _ _ | .tables _ =>
    refine hmiss fun path hpath => ?_
    cases hpath

theorem overwrites_package (version : Text) :
    Overwrites (fun _ path => path = [.key versionKey]) version (Node.mapEntries (setVersion version)) := by
  intro n hit hn hhit hstring
  obtain ⟨t, ht⟩ := hstring _ rfl
  cases n with
  | table form es =>
    rw [Node.overwrite, Node.mapEntries, (setTableVersion_eq_overwrite hn ht hhit).1]
  | scalar | array | tables => simp [Data.at?, Data.child?, Data.get?, Node.data] at ht

theorem slotwise_overwrites (version : Text) : Slotwise version fun slot => Overwrites slot version where
  congr := Overwrites.congr
  refl hslot := .refl hslot version
  mapEntries _ := .mapEntries
  requirement := overwrites_stampRequirement version
  package := overwrites_package version

end Levels

section Root

variable {lead version : Text} {d : Document}

theorem below_rootSlot (hv : Versioned lead d.data) {path : List Step} :
    Below (RootSlot lead) d.data path ↔ VersionSlot lead d.data path := by
  constructor
  · exact VersionSlot.of_below
  · intro h
    cases h with
    | package =>
      obtain ⟨t, ht⟩ := hv _ .package
      obtain ⟨e, he, -⟩ := Option.bind_eq_some_iff.mp ht
      exact .field he (.inl ⟨rfl, rfl⟩)
    | own h =>
      obtain ⟨he, hname, h⟩ := h
      exact .field he (.inr (.inl ⟨hname, h⟩))
    | target he h => exact .field he (.inr (.inr ⟨rfl, h⟩))

theorem Versioned.packaged (hv : Versioned lead d.data) : Packaged d.entries := by
  obtain ⟨t, ht⟩ := hv _ .package
  obtain ⟨e, he, ht⟩ := Option.bind_eq_some_iff.mp ht
  cases e with
  | map fields => exact Manifest.find?_of_data he
  | scalar | list => simp [Data.at?, Data.child?, Data.get?] at ht

/-- A stamp that finds every version in place overwrites the versions and nothing else. -/
theorem carry_eq_overwrite (hd : distinctEntries d.entries) (hv : Versioned lead d.data) :
    (stampVersions lead version).carry d =
      d.overwrite (fun path => decide (VersionSlot lead d.data path)) version := by
  have hroot := Overwrites.mapEntries ((slotwise_overwrites version).stampRoot lead) d.root
    (fun path => decide (VersionSlot lead d.data path)) hd
    (fun path => decide_eq_true_iff.trans (below_rootSlot hv).symm)
    fun path hpath => hv path ((below_rootSlot hv).mp hpath)
  have hentries : overwriteEntries (fun path => decide (VersionSlot lead d.data path)) version d.entries =
      d.entries.map fun e => (e.1, stampRoot lead version e.1.name e.2) := by
    simpa [Document.root, Node.overwrite, Node.mapEntries] using hroot
  rw [Document.overwrite, hentries, ← carry_stampVersions hd hv.packaged]
  rfl

theorem pieces_carry (hd : distinctEntries d.entries) (hv : Versioned lead d.data) :
    ((stampVersions lead version).carry d).pieces =
      d.pieces.map (Piece.overwrite (fun path => decide (VersionSlot lead d.data path)) version) := by
  rw [carry_eq_overwrite hd hv, Document.pieces_overwrite]

end Root

end WorkspaceRelease.Stamp

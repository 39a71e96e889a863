import WorkspaceRelease.Proofs.Manifest.Replacement
import WorkspaceRelease.Proofs.Manifest.Stamped
import WorkspaceRelease.Proofs.Toml.Layout
import WorkspaceRelease.Proofs.Toml.Reading

/-!
Manifests that say the same have the version at the same places. A stamped manifest has a string at each of these
places.
-/

namespace WorkspaceRelease.Stamp

open Toml Entries

section Slots

variable {lead : Text} {d e : Data} {path : List Step}

theorem RequirementSlot.agree (h : Data.Agree d e) (hpath : RequirementSlot d path) : RequirementSlot e path := by
  cases hpath with
  | string s =>
    obtain rfl := h.scalar
    exact .string s
  | field hown =>
    obtain ⟨fields, rfl⟩ := h.map
    apply RequirementSlot.field
    intro hinherits
    have hback := @Data.Agree.child _ _ h.symm (.key "workspace".toList) _ hinherits
    obtain ⟨a, ha, hagree⟩ := hback
    obtain rfl := hagree.scalar
    exact hown ha

theorem SectionsSlot.agree (h : Data.Agree d e) (hpath : SectionsSlot lead d path) : SectionsSlot lead e path := by
  apply Below.agree h _ hpath
  rintro name a b path hab ⟨hname, htable⟩
  refine ⟨hname, Below.agree hab ?_ htable⟩
  rintro name a b path hab ⟨hlead, hslot⟩
  exact ⟨hlead, hslot.agree hab⟩

theorem TargetsSlot.agree (h : Data.Agree d e) (hpath : TargetsSlot lead d path) : TargetsSlot lead e path :=
  Below.agree h (fun _ _ _ _ hab htarget => SectionsSlot.agree hab htarget) hpath

theorem VersionSlot.agree (h : Data.Agree d e) (hpath : VersionSlot lead d path) : VersionSlot lead e path := by
  cases hpath with
  | package => exact .package
  | own hpath => exact .own (hpath.agree h)
  | target htargets hpath =>
    obtain ⟨b, hb, hab⟩ := h.child htargets
    exact .target hb (hpath.agree hab)

theorem versionSlot_agree (h : Data.Agree d e) : VersionSlot lead d path ↔ VersionSlot lead e path :=
  ⟨VersionSlot.agree h, VersionSlot.agree h.symm⟩

end Slots

section Versioned

variable {exact : Bool} {lead version : Text}

theorem child?_entries {name : Text} {es : List Entry} {e : Data}
    (h : (Data.map (entryData es)).child? (.key name) = some e) : ∃ n, find? name es = some n ∧ n.data = e := by
  have hlookup : (entryData es).lookup name = some e := h
  rw [lookup_entryData] at hlookup
  exact Option.map_eq_some_iff.mp hlookup

theorem table_of_below {inner : Text → Data → List Step → Prop} {n : Node} {path : List Step}
    (h : Below inner n.data path) : ∃ form es, n = .table form es := by
  cases n with
  | table form es => exact ⟨form, es, rfl⟩
  | scalar | array | tables =>
    obtain ⟨he, -⟩ := h
    exact nomatch he

theorem IsVersion.data {n : Node} (h : IsVersion exact version n) : n.data = .string version := by
  obtain ⟨written, pad, rfl, -⟩ := h
  rfl

theorem Asks.string {n : Node} (h : Asks exact version n) {path : List Step} (hpath : RequirementSlot n.data path) :
    n.data.at? path = some (.string version) := by
  match n with
  | .scalar (.string s) written pad =>
    cases hpath
    exact congrArg some (IsVersion.data h)
  | .table form es =>
    cases hpath with
    | field hown =>
      have hinherits : inherits es = false := by
        cases hes : inherits es with
        | false => rfl
        | true => exact absurd (inherits_iff_data.mp hes) hown
      obtain ⟨n, hn, hversion⟩ := h hinherits
      have hchild : (Node.table form es).data.child? (.key versionKey) = some n.data := by
        rw [child?_data, Node.child?, hn, Option.map_some]
      rw [Data.at?, hchild, hversion.data]
      rfl
  | .scalar (.integer _) _ _ | .scalar (.float _) _ _ | .scalar (.boolean _) _ _
  | .scalar (.dateTime _) _ _ | .array _ _ _ _ | .tables _ => cases hpath

theorem SectionsAsk.string {es : List Entry} (h : SectionsAsk exact lead version es) {path : List Step}
    (hpath : SectionsSlot lead (.map (entryData es)) path) :
    (Data.map (entryData es)).at? path = some (.string version) := by
  obtain ⟨he, hname, hinner⟩ := hpath
  obtain ⟨n, hn, rfl⟩ := child?_entries he
  obtain ⟨form, inner, rfl⟩ := table_of_below hinner
  obtain ⟨he', hlead, hrequirement⟩ := hinner
  obtain ⟨m, hm, rfl⟩ := child?_entries he'
  obtain ⟨k, hmem, rfl⟩ := find?_mem hm
  have hasks : Asks exact version m := h _ hname form inner hn k m hmem hlead
  rw [Data.at?, he, Option.bind_some, Data.at?, he', Option.bind_some]
  exact hasks.string hrequirement

theorem Stamped.versioned {d : Document} (h : Stamped exact lead version d.entries) : Versioned lead d.data := by
  intro path hpath
  refine ⟨version, ?_⟩
  cases hpath with
  | package =>
    obtain ⟨form, inner, n, hfind, hn, hversion⟩ := h.package
    have hpackage : d.data.child? (.key "package".toList) = some (Node.table form inner).data := by
      rw [Document.data, Data.child?, Data.get?, lookup_entryData, hfind, Option.map_some]
    have hchild : (Node.table form inner).data.child? (.key versionKey) = some n.data := by
      rw [child?_data, Node.child?, hn, Option.map_some]
    rw [Data.at?, hpackage, Option.bind_some, Data.at?, hchild, hversion.data]
    rfl
  | own hpath => exact h.sections.string hpath
  | target htargets hpath =>
    obtain ⟨n, hn, rfl⟩ := child?_entries htargets
    obtain ⟨form, ts, rfl⟩ := table_of_below hpath
    obtain ⟨he, hsections⟩ := hpath
    obtain ⟨t, ht, rfl⟩ := child?_entries he
    obtain ⟨form', inner, rfl⟩ := table_of_below hsections
    obtain ⟨k, hmem, rfl⟩ := find?_mem ht
    rw [Data.at?, htargets, Option.bind_some, Data.at?, he, Option.bind_some]
    exact (h.targets form ts hn k form' inner hmem).string hsections

theorem Versioned.agree {d e : Data} (hv : Versioned lead d) (h : Data.Agree d e) : Versioned lead e := by
  intro path hpath
  obtain ⟨t, ht⟩ := hv path (hpath.agree h.symm)
  refine ⟨t, ?_⟩
  have hshape : some (Data.shape (.string t)) = (e.at? path).map Data.shape := by
    rw [← h path, ht, Option.map_some]
  obtain ⟨a, ha, hstring⟩ := Option.map_eq_some_iff.mp hshape.symm
  rw [ha]
  cases a with
  | scalar s => simpa [Data.shape, Data.string] using hstring
  | list | map => simp [Data.shape, Data.string] at hstring

end Versioned

end WorkspaceRelease.Stamp

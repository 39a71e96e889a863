import WorkspaceRelease.Proofs.Manifest.Paths
import WorkspaceRelease.Proofs.Toml.Distinct

/-!
A stamp as one function on the entries of a document. What it does at the places of the version follows from what it
does in one requirement and in the table of the package, for every statement that holds of a table as it holds of its
entries.
-/

namespace WorkspaceRelease.Stamp

open Toml

/-- Statements on what a function does at some places, which hold of a table as they hold of its entries. -/
structure Slotwise (version : Text) (P : (Data → List Step → Prop) → (Node → Node) → Prop) : Prop where
  congr {slot slot' : Data → List Step → Prop} {g : Node → Node} :
    P slot g → (∀ d path, slot' d path ↔ slot d path) → P slot' g
  refl {slot : Data → List Step → Prop} : (∀ d path, ¬slot d path) → P slot id
  mapEntries {inner : Text → Data → List Step → Prop} (g : Text → Node → Node) : (∀ name, P (inner name) (g name)) →
    P (Below inner) (Node.mapEntries (List.map fun e => (e.1, g e.1.name e.2)))
  requirement : P RequirementSlot (stampRequirement version)
  package : P (fun _ path => path = [.key versionKey]) (Node.mapEntries (setVersion version))

section Root

variable {lead version : Text} {d : Document}

/-- The places of the version at and below an entry of the root. -/
def RootSlot (lead : Text) (name : Text) (e : Data) (path : List Step) : Prop :=
  (name = "package".toList ∧ path = [.key versionKey]) ∨
    (name ∈ dependencySections ∧ TableSlot lead e path) ∨
    (name = "target".toList ∧ TargetsSlot lead e path)

def stampRoot (lead version name : Text) (n : Node) : Node :=
  if name = "package".toList then n.mapEntries (setVersion version)
  else carryRoot (stampVersions lead version).family name n

theorem selected_iff (name : Text) :
    (stampVersions lead version).family name = some version ↔ lead <+: name :=
  stampVersions_family.trans (and_iff_left rfl)

theorem tableAt_iff {e : Data} {path : List Step} :
    TableAt ((stampVersions lead version).family · = some version) e path ↔ TableSlot lead e path := by
  simp only [TableAt, TableSlot, selected_iff]

theorem targetsAt_iff {e : Data} {path : List Step} :
    TargetsAt ((stampVersions lead version).family · = some version) e path ↔ TargetsSlot lead e path := by
  simp only [TargetsAt, TargetsSlot, SectionsAt, SectionsSlot, TableAt, TableSlot, selected_iff]

namespace Slotwise

variable {P : (Data → List Step → Prop) → (Node → Node) → Prop} {family : Text → Option Text}

theorem carryRequirement (hP : Slotwise version P) {version? : Option Text} (h : ∀ v, version? = some v → v = version) :
    P (fun e path => version? = some version ∧ RequirementSlot e path) (Stamp.carryRequirement version?) := by
  cases version? with
  | none => exact hP.refl fun _ _ h => nomatch h.1
  | some v =>
    obtain rfl := h v rfl
    exact hP.congr hP.requirement fun _ _ => and_iff_right rfl

theorem carryTable (hP : Slotwise version P) (h : ∀ name v, family name = some v → v = version) :
    P (TableAt (family · = some version)) (Node.mapEntries (Stamp.carryTable family)) :=
  hP.mapEntries (fun name n => Stamp.carryRequirement (family name) n) fun name => hP.carryRequirement (h name)

theorem carrySections (hP : Slotwise version P) (h : ∀ name v, family name = some v → v = version) :
    P (SectionsAt (family · = some version)) (Node.mapEntries (Stamp.carrySections family)) := by
  refine hP.mapEntries
    (fun name n => if dependencySections.contains name then n.mapEntries (Stamp.carryTable family) else n)
    fun name => ?_
  by_cases hname : name ∈ dependencySections
  · simp only [List.contains_iff_mem.mpr hname, ↓reduceIte]
    exact hP.congr (hP.carryTable h) fun _ _ => and_iff_right hname
  · simp only [mt List.contains_iff_mem.mp hname, Bool.false_eq_true, ↓reduceIte]
    exact hP.refl fun _ _ hpath => hname hpath.1

theorem carryTargets (hP : Slotwise version P) (h : ∀ name v, family name = some v → v = version) :
    P (TargetsAt (family · = some version))
      (Node.mapEntries (List.map fun (k, t) => (k, t.mapEntries (Stamp.carrySections family)))) :=
  hP.mapEntries (fun _ t => t.mapEntries (Stamp.carrySections family)) fun _ => hP.carrySections h

theorem stampRoot (hP : Slotwise version P) (lead name : Text) :
    P (RootSlot lead name) (Stamp.stampRoot lead version name) := by
  have hfamily (name v : Text) (hv : (stampVersions lead version).family name = some v) : v = version :=
    (stampVersions_family.mp hv).2
  have hpackage : "package".toList ∉ dependencySections ∧ "package".toList ≠ "target".toList := by decide
  have hne : ∀ group ∈ dependencySections, group ≠ "target".toList := by decide
  unfold Stamp.stampRoot
  by_cases hname : name = "package".toList
  · subst hname
    simp only [↓reduceIte]
    refine hP.congr hP.package fun e path => ?_
    simp only [RootSlot, hpackage, true_and, false_and, or_false]
  · simp only [hname, ↓reduceIte]
    unfold carryRoot
    by_cases hsection : name ∈ dependencySections
    · simp only [List.contains_iff_mem.mpr hsection, ↓reduceIte]
      refine hP.congr (hP.carryTable hfamily) fun e path => ?_
      simp only [RootSlot, hname, hsection, hne name hsection, tableAt_iff, true_and, false_and, false_or, or_false]
    · simp only [mt List.contains_iff_mem.mp hsection, Bool.false_eq_true, ↓reduceIte]
      by_cases htarget : name = "target".toList
      · simp only [htarget, ↓reduceIte]
        refine hP.congr (hP.carryTargets hfamily) fun e path => ?_
        rw [htarget] at hname hsection
        simp only [RootSlot, hname, hsection, targetsAt_iff, true_and, false_and, false_or]
      · simp only [htarget, ↓reduceIte]
        refine hP.refl fun e path hpath => ?_
        simp only [RootSlot, hname, hsection, htarget, false_and, or_false] at hpath

end Slotwise

theorem VersionSlot.of_below {path : List Step} (h : Below (RootSlot lead) d.data path) :
    VersionSlot lead d.data path := by
  obtain ⟨he, ⟨rfl, rfl⟩ | ⟨hname, h⟩ | ⟨rfl, h⟩⟩ := h
  · exact .package
  · exact .own (.field he ⟨hname, h⟩)
  · exact .target he h

theorem replace_eq_map {name : Text} {n : Node} {f : Node → Node} {es : List Entry} (hes : distinctEntries es)
    (h : Entries.find? name es = some n) :
    Entries.replace name (f n) es = es.map fun e => (e.1, if e.1.name = name then f e.2 else e.2) := by
  induction es with
  | nil => rfl
  | cons e es ih =>
    obtain ⟨hfresh, -, hes⟩ := hes
    by_cases hk : e.1.name = name
    · obtain rfl : e.2 = n := by simpa [Entries.find?, hk] using h
      have hothers : es.map (fun e => (e.1, if e.1.name = name then f e.2 else e.2)) = es := by
        refine (List.map_congr_left fun x hx => ?_).trans (List.map_id' es)
        rw [if_neg (hk ▸ Entries.find?_eq_none_of_mem hfresh hx)]
      rw [List.map_cons, hothers, if_pos hk, Entries.replace, if_pos hk]
    · have h' : Entries.find? name es = some n := by simpa [Entries.find?, hk] using h
      rw [List.map_cons, ← ih hes h', if_neg hk, Entries.replace, if_neg hk]

theorem carry_stampVersions (hd : distinctEntries d.entries) (hpackage : Packaged d.entries) :
    ((stampVersions lead version).carry d).entries =
      d.entries.map fun e => (e.1, stampRoot lead version e.1.name e.2) := by
  obtain ⟨form, inner, hfind⟩ := hpackage
  have hreplace := replace_eq_map (f := Node.mapEntries (setVersion version)) hd hfind
  have hpackage : carryPackage (some version) d.entries = d.entries.map fun e =>
      (e.1, if e.1.name = "package".toList then e.2.mapEntries (setVersion version) else e.2) := by
    rw [← hreplace, carryPackage, stampPackage?_eq version hfind, Option.getD_some, Node.mapEntries]
  change carryFamily _ (carryPackage (some version) d.entries) = _
  rw [hpackage, carryFamily, List.map_map]
  refine List.map_congr_left fun e _ => ?_
  by_cases hname : e.1.name = "package".toList
  · simp only [Function.comp_apply, hname, ↓reduceIte, carryRoot_package, stampRoot]
  · simp only [Function.comp_apply, hname, ↓reduceIte, stampRoot]

end Root

end WorkspaceRelease.Stamp

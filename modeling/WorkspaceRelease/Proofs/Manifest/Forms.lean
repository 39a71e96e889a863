import WorkspaceRelease.Proofs.Manifest.Carry
import WorkspaceRelease.Proofs.Toml.Forms

/-!
Versions are values, and stand where values may stand.
-/

namespace WorkspaceRelease.Stamp

open Toml

variable {site : Site} {family : Text → Option Text} {version : Text} {es : List Entry} {n : Node}

theorem entriesFit_replace (h : entriesFit site es) {new : Node} (hnew : new.Fits site) (name : Text) :
    entriesFit site (Entries.replace name new es) := by
  refine entriesFit_iff.mpr fun e he => ?_
  rcases mem_replace he with heq | he
  · exact heq ▸ hnew
  · exact entriesFit_iff.mp h e he

theorem entriesFit_map {g : Text → Node → Node} (hg : ∀ name n, n.Fits site → (g name n).Fits site)
    (h : entriesFit site es) : entriesFit site (es.map fun e => (e.1, g e.1.name e.2)) := by
  refine entriesFit_iff.mpr (List.forall_mem_map.mpr fun e he => ?_)
  exact hg _ _ (entriesFit_iff.mp h e he)

theorem fits_mapEntries {f : List Entry → List Entry}
    (hf : ∀ site es, site ≠ .element → entriesFit site es → entriesFit site (f es)) (h : n.Fits site) :
    (n.mapEntries f).Fits site := by
  cases n with
  | scalar | array | tables => exact h
  | table form es => cases form <;> exact ⟨h.1, hf _ _ (by decide) h.2⟩

theorem fits_versionString (hsite : site ≠ .element) (pad : Padding) : (versionString version pad).Fits site := hsite

theorem entriesFit_setVersion (hsite : site ≠ .element) (h : entriesFit site es) :
    entriesFit site (setVersion version es) := by
  unfold setVersion
  split
  · exact entriesFit_replace h (fits_versionString hsite _) _
  · exact entriesFit_append h (fits_versionString hsite _)

theorem entriesFit_setInlineVersion (hsite : site ≠ .element) (h : entriesFit site es) :
    entriesFit site (setInlineVersion version es) := by
  unfold setInlineVersion
  split
  · exact entriesFit_replace h (fits_versionString hsite _) _
  · cases hlast : es.getLast? with
    | none =>
      simp only [appendVersion, hlast]
      exact ⟨fits_versionString hsite _, trivial⟩
    | some e =>
      obtain ⟨init, rfl⟩ := List.getLast?_eq_some_iff.mp hlast
      obtain ⟨hinit, he⟩ := List.forall_mem_append.mp (entriesFit_iff.mp h)
      have hpadded := (he e (List.mem_singleton_self e)).withPad { e.2.pad with after := some [] }
      have hversion : (versionString version { after := e.2.pad.after }).Fits site := fits_versionString hsite _
      simp only [appendVersion, hlast, List.dropLast_concat]
      exact entriesFit_iff.mpr (List.forall_mem_append.mpr ⟨hinit, by simpa using ⟨hpadded, hversion⟩⟩)

theorem fits_stampRequirement (hsite : site ≠ .element) (h : n.Fits site) :
    (stampRequirement version n).Fits site := by
  match n, h with
  | .scalar (.string _) _ _, _ => exact fits_versionString hsite _
  | .table form es, h =>
    cases hinherits : inherits es with
    | true => simpa only [stampRequirement, hinherits, ↓reduceIte] using h
    | false =>
      simp only [stampRequirement, hinherits, Bool.false_eq_true, ↓reduceIte, setTableVersion]
      cases form with
      | inline | inlineDotted => exact ⟨h.1, entriesFit_setInlineVersion (by decide) h.2⟩
      | dotted | implicit | headed => exact ⟨h.1, entriesFit_setVersion (by decide) h.2⟩
  | .scalar (.integer _) _ _, h | .scalar (.float _) _ _, h | .scalar (.boolean _) _ _, h
  | .scalar (.dateTime _) _ _, h | .array _ _ _ _, h | .tables _, h => exact h

theorem fits_carryRequirement (hsite : site ≠ .element) (version? : Option Text) (h : n.Fits site) :
    (carryRequirement version? n).Fits site := by
  cases version? with
  | none => exact h
  | some version => exact fits_stampRequirement hsite h

theorem fits_carryTable (h : n.Fits site) : (n.mapEntries (carryTable family)).Fits site :=
  fits_mapEntries (fun _ _ hsite hes => entriesFit_map (g := fun name n => carryRequirement (family name) n)
    (fun _ _ hn => fits_carryRequirement hsite _ hn) hes) h

theorem fits_carrySections (h : n.Fits site) : (n.mapEntries (carrySections family)).Fits site := by
  refine fits_mapEntries (fun site es _ hes => ?_) h
  apply entriesFit_map
    (g := fun name n => if dependencySections.contains name then n.mapEntries (carryTable family) else n) _ hes
  intro name n hn
  split
  · exact fits_carryTable hn
  · exact hn

theorem entriesFit_carryFamily (h : entriesFit site es) : entriesFit site (carryFamily family es) := by
  apply entriesFit_map (g := carryRoot family) _ h
  intro name n hn
  unfold carryRoot
  split
  · exact fits_carryTable hn
  · split
    · refine fits_mapEntries (fun site ts _ hts => ?_) hn
      exact entriesFit_map (g := fun _ t => t.mapEntries (carrySections family)) (fun _ _ => fits_carrySections) hts
    · exact hn

theorem entriesFit_stampFamily (lead version : Text) (h : entriesFit site es) :
    entriesFit site (stampFamily lead version es) := by
  rw [stampFamily_eq_carryFamily]
  exact entriesFit_carryFamily h

end WorkspaceRelease.Stamp

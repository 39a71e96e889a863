import WorkspaceRelease.Proofs.Manifest.Carry
import WorkspaceRelease.Proofs.Toml.Reading

/-!
A document that carries versions has no name twice if the document without them has none.
-/

namespace WorkspaceRelease.Stamp

open Toml Entries

variable {family : Text → Option Text} {version : Text}

theorem distinctEntries_map {g : Text → Node → Node} (hg : ∀ name n, n.Distinct → (g name n).Distinct)
    {es : List Entry} (h : distinctEntries es) : distinctEntries (es.map fun e => (e.1, g e.1.name e.2)) := by
  induction es with
  | nil => trivial
  | cons e es ih =>
    obtain ⟨hfresh, hn, hes⟩ := h
    refine ⟨?_, hg _ _ hn, ih hes⟩
    rw [find?_map, hfresh, Option.map_none]

theorem distinct_mapEntries {f : List Entry → List Entry} (hf : ∀ es, distinctEntries es → distinctEntries (f es))
    {n : Node} (h : n.Distinct) : (n.mapEntries f).Distinct := by
  cases n with
  | table form es => exact hf es h
  | scalar | array | tables => exact h

theorem distinct_withPad {n : Node} (h : n.Distinct) (pad : Padding) : (n.withPad pad).Distinct :=
  distinctInvariant.withPad h pad

theorem distinct_versionString (pad : Padding) : (versionString version pad).Distinct := trivial

theorem distinctEntries_setVersion {es : List Entry} (h : distinctEntries es) :
    distinctEntries (setVersion version es) := by
  unfold setVersion
  cases hfind : find? versionKey es with
  | some old => exact distinctEntries_replace h (distinct_versionString _)
  | none => exact distinctEntries_append h hfind (distinct_versionString _)

theorem distinctEntries_init {es : List Entry} {e : Entry} (h : distinctEntries (es ++ [e])) :
    distinctEntries es ∧ find? e.1.name es = none ∧ e.2.Distinct := by
  induction es with
  | nil => exact ⟨trivial, rfl, h.2.1⟩
  | cons f es ih =>
    obtain ⟨hfresh, hf, hes⟩ := h
    obtain ⟨hd, hnone, he⟩ := ih hes
    have hboth : find? f.1.name (es ++ [e]) = none := hfresh
    rw [find?_append, Option.or_eq_none_iff] at hboth
    obtain ⟨hinit, hlast⟩ := hboth
    have hne : f.1.name ≠ e.1.name := by
      intro hname
      simp [find?, hname] at hlast
    exact ⟨⟨hinit, hf, hd⟩, by simpa [find?, hne] using hnone, he⟩

theorem distinctEntries_appendVersion {es : List Entry} (h : distinctEntries es)
    (hversion : find? versionKey es = none) : distinctEntries (appendVersion version es) := by
  unfold appendVersion
  cases hlast : es.getLast? with
  | none => exact ⟨rfl, distinct_versionString _, trivial⟩
  | some e =>
    obtain ⟨init, rfl⟩ := List.getLast?_eq_some_iff.mp hlast
    obtain ⟨hinit, hfresh, he⟩ := distinctEntries_init h
    rw [find?_append, Option.or_eq_none_iff] at hversion
    obtain ⟨hnone, hlastName⟩ := hversion
    have hne : e.1.name ≠ versionKey := by
      intro hname
      simp [find?, hname] at hlastName
    have hpadded : distinctEntries (init ++ [(e.1, e.2.withPad { e.2.pad with after := some [] })]) :=
      distinctEntries_append hinit hfresh (distinct_withPad he _)
    have happended := distinctEntries_append (k := Key.ofName versionKey)
      (n := versionString version { after := e.2.pad.after }) hpadded ?_ (distinct_versionString _)
    · simpa using happended
    · simp [find?_append, hnone, find?, Key.ofName, hne]

theorem distinctEntries_setTableVersion (form : TableForm) {es : List Entry} (h : distinctEntries es) :
    distinctEntries (setTableVersion version form es) := by
  have hinline : distinctEntries (setInlineVersion version es) := by
    unfold setInlineVersion
    cases hfind : find? versionKey es with
    | some old => exact distinctEntries_replace h (distinct_versionString _)
    | none => exact distinctEntries_appendVersion h hfind
  unfold setTableVersion
  split
  · exact hinline
  · exact hinline
  · exact distinctEntries_setVersion h

theorem distinct_carryRequirement (version? : Option Text) {n : Node} (h : n.Distinct) :
    (carryRequirement version? n).Distinct := by
  match version?, n with
  | none, _ => exact h
  | some version, .scalar (.string _) _ _ => exact distinct_versionString _
  | some version, .table form es =>
    cases hes : inherits es with
    | true => simpa only [carryRequirement, stampRequirement, hes, ↓reduceIte] using h
    | false =>
      simp only [carryRequirement, stampRequirement, hes, Bool.false_eq_true, ↓reduceIte]
      exact distinctEntries_setTableVersion form h
  | some _, .scalar (.integer _) _ _ | some _, .scalar (.float _) _ _ | some _, .scalar (.boolean _) _ _
  | some _, .scalar (.dateTime _) _ _ | some _, .array _ _ _ _ | some _, .tables _ => exact h

theorem distinctEntries_carryTable {es : List Entry} (h : distinctEntries es) :
    distinctEntries (carryTable family es) :=
  distinctEntries_map (g := fun name n => carryRequirement (family name) n)
    (fun _ _ hn => distinct_carryRequirement _ hn) h

theorem distinctEntries_carrySections {es : List Entry} (h : distinctEntries es) :
    distinctEntries (carrySections family es) := by
  apply distinctEntries_map
    (g := fun name n => if dependencySections.contains name then n.mapEntries (carryTable family) else n) _ h
  intro name n hn
  split
  · exact distinct_mapEntries (fun es hes => distinctEntries_carryTable hes) hn
  · exact hn

theorem distinct_carryRoot (name : Text) {n : Node} (h : n.Distinct) : (carryRoot family name n).Distinct := by
  unfold carryRoot
  split
  · exact distinct_mapEntries (fun es hes => distinctEntries_carryTable hes) h
  · split
    · apply distinct_mapEntries _ h
      intro ts hts
      exact distinctEntries_map (g := fun _ t => t.mapEntries (carrySections family))
        (fun _ t ht => distinct_mapEntries (fun es hes => distinctEntries_carrySections hes) ht) hts
    · exact h

theorem distinctEntries_carry {d : Document} (h : distinctEntries d.entries) (vs : Versions) :
    distinctEntries (vs.carry d).entries := by
  have hpackage : distinctEntries (carryPackage vs.package d.entries) := by
    unfold carryPackage
    split
    · cases hes : stampPackage? _ d.entries with
      | none => exact h
      | some es =>
        simp only [stampPackage?, Option.bind_eq_bind, Option.bind_eq_some_iff] at hes
        obtain ⟨n, hn, hes⟩ := hes
        split at hes
        · obtain rfl := Option.some.inj hes
          exact distinctEntries_replace h (distinctEntries_setVersion (distinctEntries_find? h hn))
        · contradiction
    · exact h
  exact distinctEntries_map (g := carryRoot vs.family) (fun name _ hn => distinct_carryRoot name hn) hpackage

end WorkspaceRelease.Stamp

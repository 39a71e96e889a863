import Mathlib.Data.List.Basic
import WorkspaceRelease.Proofs.Manifest.Slots

/-!
Versions carried into a document. A later version takes the place of an earlier one without a trace, so a
document depends on the last version of each place alone.
-/

namespace WorkspaceRelease.Stamp

open Toml

section Overwriting

open Entries

theorem replace_replace (name : Text) (new old : Node) (es : List Entry) :
    replace name new (replace name old es) = replace name new es := by
  induction es with
  | nil => rfl
  | cons e es ih => by_cases h : e.1.name = name <;> simp [replace, h, ih]

theorem replace_append_of_none {name : Text} {es : List Entry} (h : find? name es = none) (new : Node)
    (fs : List Entry) : replace name new (es ++ fs) = es ++ replace name new fs := by
  induction es with
  | nil => rfl
  | cons e es ih =>
    by_cases hk : e.1.name = name
    · simp [find?, hk] at h
    · simp only [find?, hk, ↓reduceIte] at h
      simp [replace, hk, ih h]

theorem setVersion_setVersion (later earlier : Text) (es : List Entry) :
    setVersion later (setVersion earlier es) = setVersion later es := by
  cases h : find? versionKey es with
  | some old =>
    simp only [setVersion, h, find?_replace_self h, replace_replace]
    rfl
  | none =>
    have hnew : find? versionKey (es ++ [(Key.ofName versionKey, versionString earlier {})]) =
        some (versionString earlier {}) := by
      simp [find?_append, h, find?, Key.ofName]
    simp only [setVersion, h, hnew, replace_append_of_none h]
    simp [replace, Key.ofName, versionString, Node.pad]

/-- The text between the last value and the brace moves once: a further version finds it where it is. -/
theorem setInlineVersion_appendVersion (later earlier : Text) {es : List Entry} (h : find? versionKey es = none) :
    setInlineVersion later (appendVersion earlier es) = appendVersion later es := by
  cases hlast : es.getLast? with
  | none =>
    obtain rfl := List.getLast?_eq_none_iff.mp hlast
    rfl
  | some e =>
    obtain ⟨init, rfl⟩ := List.getLast?_eq_some_iff.mp hlast
    rw [find?_append, Option.or_eq_none_iff] at h
    obtain ⟨hinit, he⟩ := h
    have hne : e.1.name ≠ versionKey := by
      intro hname
      simp [find?, hname] at he
    simp [setInlineVersion, appendVersion, find?_append, hinit, find?, hne, Key.ofName, replace_append_of_none hinit,
      replace, versionString, Node.pad]

theorem setInlineVersion_setInlineVersion (later earlier : Text) (es : List Entry) :
    setInlineVersion later (setInlineVersion earlier es) = setInlineVersion later es := by
  cases h : find? versionKey es with
  | some old =>
    simp only [setInlineVersion, h, find?_replace_self h, replace_replace]
    rfl
  | none =>
    have hearlier : setInlineVersion earlier es = appendVersion earlier es := by simp only [setInlineVersion, h]
    have hlater : setInlineVersion later es = appendVersion later es := by simp only [setInlineVersion, h]
    rw [hearlier, hlater, setInlineVersion_appendVersion later earlier h]

theorem setTableVersion_setTableVersion (later earlier : Text) (form : TableForm) (es : List Entry) :
    setTableVersion later form (setTableVersion earlier form es) = setTableVersion later form es := by
  cases form with
  | inline | inlineDotted => exact setInlineVersion_setInlineVersion later earlier es
  | dotted | implicit | headed => exact setVersion_setVersion later earlier es

theorem inherits_setTableVersion (version : Text) (form : TableForm) (es : List Entry) :
    inherits (setTableVersion version form es) = inherits es := by
  rw [Bool.eq_iff_iff, inherits_iff_data, inherits_iff_data, lookup_entryData, lookup_entryData,
    data_find?_setTableVersion_of_ne form es (by decide)]

theorem stampRequirement_stampRequirement (later earlier : Text) (n : Node) :
    stampRequirement later (stampRequirement earlier n) = stampRequirement later n := by
  match n with
  | .scalar (.string _) _ _ => rfl
  | .table form es =>
    cases h : inherits es with
    | true => simp only [stampRequirement, h, ↓reduceIte]
    | false =>
      simp only [stampRequirement, h, inherits_setTableVersion, setTableVersion_setTableVersion, Bool.false_eq_true,
        ↓reduceIte]
  | .scalar (.integer _) _ _ | .scalar (.float _) _ _ | .scalar (.boolean _) _ _
  | .scalar (.dateTime _) _ _ | .array _ _ _ _ | .tables _ => rfl

theorem outcome_stampRequirement (version : Text) (n : Node) : outcome (stampRequirement version n) = outcome n := by
  match n with
  | .scalar (.string _) _ _ => rfl
  | .table form es =>
    cases h : inherits es with
    | true => simp only [stampRequirement, outcome, h, ↓reduceIte]
    | false => simp only [stampRequirement, outcome, h, inherits_setTableVersion, Bool.false_eq_true, ↓reduceIte]
  | .scalar (.integer _) _ _ | .scalar (.float _) _ _ | .scalar (.boolean _) _ _
  | .scalar (.dateTime _) _ _ | .array _ _ _ _ | .tables _ => rfl

end Overwriting

/-- The version of the package, and that of each requirement by its name. -/
structure Versions where
  package : Option Text
  family : Text → Option Text

/-- The later versions, and the earlier ones where there is none. -/
def Versions.override (later earlier : Versions) : Versions where
  package := later.package.or earlier.package
  family name := (later.family name).or (earlier.family name)

def carryRequirement (version? : Option Text) (n : Node) : Node :=
  match version? with
  | some version => stampRequirement version n
  | none => n

def carryTable (family : Text → Option Text) (es : List Entry) : List Entry :=
  es.map fun (k, n) => (k, carryRequirement (family k.name) n)

def carrySections (family : Text → Option Text) (es : List Entry) : List Entry :=
  es.map fun (k, n) =>
    (k, if dependencySections.contains k.name then n.mapEntries (carryTable family) else n)

/-- What becomes of an entry at the root, by its name. -/
def carryRoot (family : Text → Option Text) (name : Text) (n : Node) : Node :=
  if dependencySections.contains name then n.mapEntries (carryTable family)
  else if name = "target".toList then
    n.mapEntries (List.map fun (k, t) => (k, t.mapEntries (carrySections family)))
  else n

def carryFamily (family : Text → Option Text) (es : List Entry) : List Entry :=
  es.map fun (k, n) => (k, carryRoot family k.name n)

def carryPackage (version? : Option Text) (es : List Entry) : List Entry :=
  match version? with
  | some version => (stampPackage? version es).getD es
  | none => es

def Versions.carry (vs : Versions) (d : Document) : Document :=
  { d with entries := carryFamily vs.family (carryPackage vs.package d.entries) }

section Composition

variable {later earlier family : Text → Option Text}

theorem carryRequirement_carryRequirement (later earlier : Option Text) (n : Node) :
    carryRequirement later (carryRequirement earlier n) = carryRequirement (later.or earlier) n := by
  cases later with
  | none => rfl
  | some v =>
    cases earlier with
    | none => rfl
    | some u => exact stampRequirement_stampRequirement v u n

theorem outcome_carryRequirement (version? : Option Text) (n : Node) :
    outcome (carryRequirement version? n) = outcome n := by
  cases version? with
  | none => rfl
  | some version => exact outcome_stampRequirement version n

theorem mapEntries_mapEntries (f g : List Entry → List Entry) (n : Node) :
    (n.mapEntries g).mapEntries f = n.mapEntries (f ∘ g) := by
  cases n <;> rfl

theorem carryTable_comp : carryTable later ∘ carryTable earlier =
    carryTable fun name => (later name).or (earlier name) := by
  funext es
  simp [carryTable, carryRequirement_carryRequirement]

theorem carrySections_comp : carrySections later ∘ carrySections earlier =
    carrySections fun name => (later name).or (earlier name) := by
  funext es
  simp only [carrySections, Function.comp_apply, List.map_map, List.map_inj_left]
  intro e _
  split
  · rw [mapEntries_mapEntries, carryTable_comp]
  · rfl

theorem carryRoot_carryRoot (name : Text) (n : Node) : carryRoot later name (carryRoot earlier name n) =
    carryRoot (fun name => (later name).or (earlier name)) name n := by
  unfold carryRoot
  split
  · rw [mapEntries_mapEntries, carryTable_comp]
  · split
    · rw [mapEntries_mapEntries]
      congr 1
      funext ts
      simp only [Function.comp_apply, List.map_map, List.map_inj_left]
      intro t _
      simp only [mapEntries_mapEntries, carrySections_comp]
    · rfl

theorem carryFamily_carryFamily (es : List Entry) : carryFamily later (carryFamily earlier es) =
    carryFamily (fun name => (later name).or (earlier name)) es := by
  simp only [carryFamily, List.map_map, List.map_inj_left]
  intro e _
  simp only [Function.comp_apply, carryRoot_carryRoot]

theorem carryRoot_package (n : Node) : carryRoot family "package".toList n = n := by
  rw [carryRoot, if_neg (by decide), if_neg (by decide)]

theorem find?_carryFamily (name : Text) (es : List Entry) :
    Entries.find? name (carryFamily family es) = (Entries.find? name es).map (carryRoot family name) :=
  find?_map (carryRoot family) name es

theorem replace_carryFamily (new : Node) (es : List Entry) :
    Entries.replace "package".toList new (carryFamily family es) =
      carryFamily family (Entries.replace "package".toList new es) := by
  induction es with
  | nil => rfl
  | cons e es ih =>
    by_cases h : e.1.name = "package".toList
    · have hnew : carryRoot family e.1.name new = new := by rw [h, carryRoot_package]
      simp only [carryFamily, List.map_cons, Entries.replace, h, ↓reduceIte, carryRoot_package]
    · simp only [carryFamily, List.map_cons, Entries.replace, h, ↓reduceIte, List.cons.injEq, true_and]
      exact ih

/-- A document that describes a package. -/
def Packaged (es : List Entry) : Prop := ∃ form inner, Entries.find? "package".toList es = some (.table form inner)

theorem stampPackage?_eq {es : List Entry} {form : TableForm} {inner : List Entry} (version : Text)
    (h : Entries.find? "package".toList es = some (.table form inner)) :
    stampPackage? version es =
      some (Entries.replace "package".toList (.table form (setVersion version inner)) es) := by
  simp only [stampPackage?, h, Option.bind_eq_bind, Option.bind_some]

theorem find?_carryPackage_of_ne {name : Text} (h : name ≠ "package".toList) (version? : Option Text)
    (es : List Entry) : Entries.find? name (carryPackage version? es) = Entries.find? name es := by
  cases version? with
  | none => rfl
  | some version =>
    cases hes : stampPackage? version es with
    | none => simp only [carryPackage, hes, Option.getD_none]
    | some fs =>
      simp only [carryPackage, hes, Option.getD_some]
      simp only [stampPackage?, Option.bind_eq_bind, Option.bind_eq_some_iff] at hes
      obtain ⟨n, -, hes⟩ := hes
      split at hes
      · obtain rfl := Option.some.inj hes
        exact Entries.find?_replace_of_ne es h
      · contradiction

theorem Packaged.carryPackage {es : List Entry} (h : Packaged es) (version? : Option Text) :
    Packaged (carryPackage version? es) := by
  obtain ⟨form, inner, hfind⟩ := h
  cases version? with
  | none => exact ⟨form, inner, hfind⟩
  | some version =>
    refine ⟨form, setVersion version inner, ?_⟩
    rw [Stamp.carryPackage, stampPackage?_eq version hfind, Option.getD_some, Entries.find?_replace_self hfind]

theorem Packaged.carryFamily {es : List Entry} (h : Packaged es) (family : Text → Option Text) :
    Packaged (carryFamily family es) := by
  obtain ⟨form, inner, hfind⟩ := h
  exact ⟨form, inner, by rw [find?_carryFamily, hfind, Option.map_some, carryRoot_package]⟩

theorem carryPackage_carryPackage {es : List Entry} (h : Packaged es) (later earlier : Option Text) :
    carryPackage later (carryPackage earlier es) = carryPackage (later.or earlier) es := by
  cases later with
  | none => rfl
  | some v =>
    cases earlier with
    | none => rfl
    | some u =>
      obtain ⟨form, inner, hfind⟩ := h
      have hfound : Entries.find? "package".toList
          (Entries.replace "package".toList (.table form (setVersion u inner)) es) =
            some (.table form (setVersion u inner)) := Entries.find?_replace_self hfind
      have hagain := stampPackage?_eq v hfound
      rw [replace_replace, setVersion_setVersion] at hagain
      simp only [carryPackage, Option.some_or, stampPackage?_eq u hfind, stampPackage?_eq v hfind, hagain,
        Option.getD_some]

theorem carryPackage_carryFamily {es : List Entry} (h : Packaged es) (version? : Option Text)
    (family : Text → Option Text) :
    carryPackage version? (carryFamily family es) = carryFamily family (carryPackage version? es) := by
  cases version? with
  | none => rfl
  | some version =>
    obtain ⟨form, inner, hfind⟩ := h
    have hfamily : Entries.find? "package".toList (carryFamily family es) = some (.table form inner) := by
      rw [find?_carryFamily, hfind, Option.map_some, carryRoot_package]
    simp only [carryPackage, stampPackage?_eq version hfind, stampPackage?_eq version hfamily, Option.getD_some,
      replace_carryFamily]

end Composition

namespace Versions

theorem packaged_carry {d : Document} (h : Packaged d.entries) (vs : Versions) : Packaged (vs.carry d).entries :=
  (h.carryPackage vs.package).carryFamily vs.family

theorem carry_carry {d : Document} (h : Packaged d.entries) (later earlier : Versions) :
    later.carry (earlier.carry d) = (later.override earlier).carry d := by
  simp only [carry, override]
  rw [carryPackage_carryFamily (h.carryPackage earlier.package), carryFamily_carryFamily,
    carryPackage_carryPackage h]

end Versions

section Count

variable {family : Text → Option Text}

theorem sectionTables_mapEntries {es fs : List Entry} (h : ∀ name ∈ dependencySections,
      Entries.find? name fs = (Entries.find? name es).map (Node.mapEntries (carryTable family))) :
    sectionTables fs = (sectionTables es).map (carryTable family) := by
  simp only [sectionTables, List.map_filterMap]
  apply List.filterMap_congr
  intro name hname
  rw [h name hname]
  cases Entries.find? name es with
  | none => rfl
  | some n => cases n <;> rfl

theorem sectionTables_carrySections (es : List Entry) :
    sectionTables (carrySections family es) = (sectionTables es).map (carryTable family) := by
  refine sectionTables_mapEntries fun name hname => ?_
  rw [carrySections,
    find?_map (fun k n => if dependencySections.contains k then n.mapEntries (carryTable family) else n),
    List.contains_iff_mem.mpr hname]
  rfl

theorem sectionTables_carryFamily (es : List Entry) :
    sectionTables (carryFamily family es) = (sectionTables es).map (carryTable family) := by
  refine sectionTables_mapEntries fun name hname => ?_
  have hroot : carryRoot family name = Node.mapEntries (carryTable family) := by
    funext n
    rw [carryRoot, if_pos (List.contains_iff_mem.mpr hname)]
  rw [find?_carryFamily, hroot]

theorem coveredTables_carryFamily (es : List Entry) :
    coveredTables (carryFamily family es) = (coveredTables es).map (carryTable family) := by
  rw [coveredTables, coveredTables, sectionTables_carryFamily, List.map_append, List.map_flatMap, find?_carryFamily]
  congr 1
  cases Entries.find? "target".toList es with
  | none => rfl
  | some n =>
    have hsection : dependencySections.contains "target".toList = false := by decide
    simp only [Option.map_some, Option.bind_some, carryRoot, hsection, Bool.false_eq_true, ↓reduceIte]
    cases n with
    | table form ts =>
      simp only [Node.mapEntries, Node.entries?, Option.getD_some, List.flatMap_map]
      congr 1
      funext t
      cases t.2 with
      | table form' inner => simp [sectionTables_carrySections]
      | scalar | array | tables => rfl
    | scalar | array | tables => rfl

theorem familyOutcomes_carryFamily (lead : Text) (es : List Entry) :
    familyOutcomes lead (carryFamily family es) = familyOutcomes lead es := by
  simp only [familyOutcomes, coveredTables_carryFamily, List.filterMap_flatten, List.map_map]
  congr 2
  funext t
  simp only [Function.comp_apply, carryTable, List.filterMap_map]
  congr 1
  funext e
  simp only [outcome_carryRequirement]

theorem coveredTables_carryPackage (version? : Option Text) (es : List Entry) :
    coveredTables (carryPackage version? es) = coveredTables es := by
  have hsections : sectionTables (carryPackage version? es) = sectionTables es := by
    have hne : ∀ name ∈ dependencySections, name ≠ "package".toList := by decide
    exact List.filterMap_congr fun name hname => by rw [find?_carryPackage_of_ne (hne name hname)]
  rw [coveredTables, coveredTables, hsections, find?_carryPackage_of_ne (by decide)]

/-- What the stamp makes of each entry, and so how many it counts, does not depend on the versions that the
document carries. -/
theorem Versions.familyOutcomes_carry (vs : Versions) (lead : Text) (d : Document) :
    familyOutcomes lead (vs.carry d).entries = familyOutcomes lead d.entries := by
  rw [carry, familyOutcomes_carryFamily, familyOutcomes, coveredTables_carryPackage]
  rfl

end Count

section Model

theorem stampFamily_eq_carryFamily (lead version : Text) (es : List Entry) : stampFamily lead version es =
    carryFamily (fun name => if lead.isPrefixOf name then some version else none) es := by
  have htable : stampTable lead version =
      carryTable fun name => if lead.isPrefixOf name then some version else none := by
    funext es
    simp only [stampTable, carryTable, List.map_inj_left]
    intro e _
    split <;> rfl
  have hsections : stampSections lead version =
      carrySections fun name => if lead.isPrefixOf name then some version else none := by
    funext es
    simp only [stampSections, carrySections, htable]
  have hne : ∀ name ∈ dependencySections, name ≠ "target".toList := by decide
  rw [stampFamily, hsections]
  simp only [stampTargets, carrySections, carryFamily, hsections, List.map_map, List.map_inj_left]
  intro e _
  simp only [Function.comp_apply, carryRoot]
  by_cases hsection : e.1.name ∈ dependencySections
  · simp only [List.contains_iff_mem.mpr hsection, ↓reduceIte, hne e.1.name hsection]
  · simp only [mt List.contains_iff_mem.mp hsection, Bool.false_eq_true, ↓reduceIte]

end Model

end WorkspaceRelease.Stamp

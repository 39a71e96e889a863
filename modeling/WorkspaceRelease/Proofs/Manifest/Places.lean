import Mathlib.Data.List.Nodup
import WorkspaceRelease.Proofs.Manifest.Slots

/-!
The requirements of the family with their places. Each place is listed once, with what the manifest has at its path.
-/

namespace WorkspaceRelease.Stamp

open Toml Entries

/-- A name in a dependency section, of the manifest itself or of one of its targets. -/
structure Place where
  target? : Option Text
  table : Text
  name : Text
  deriving DecidableEq, Repr

namespace Place

def path (p : Place) : List Step :=
  (p.target?.elim [] fun target => [.key "target".toList, .key target]) ++ [.key p.table, .key p.name]

structure Covered (lead : Text) (p : Place) : Prop where
  table : p.table ∈ dependencySections
  name : lead <+: p.name

end Place

section Listing

variable (lead : Text) (target? : Option Text)

def placesIn (table : Text) (n : Node) : List (Place × Node) :=
  (n.entries?.getD []).filterMap fun (k, m) =>
    if lead.isPrefixOf k.name then some (⟨target?, table, k.name⟩, m) else none

def sectionPlaces (n : Node) : List (Place × Node) :=
  dependencySections.flatMap fun table => (n.get? table).elim [] (placesIn lead target? table)

def targetPlaces (targets : Node) : List (Place × Node) :=
  (targets.entries?.getD []).flatMap fun (k, t) => sectionPlaces lead (some k.name) t

def familyPlaces (root : Node) : List (Place × Node) :=
  sectionPlaces lead none root ++ (root.get? "target".toList).elim [] (targetPlaces lead)

end Listing

section Membership

variable {lead name : Text} {target? : Option Text} {n m : Node} {p : Place}

theorem mem_placesIn {table : Text} (h : n.Distinct) : (p, m) ∈ placesIn lead target? table n ↔
    p.target? = target? ∧ p.table = table ∧ lead <+: p.name ∧ n.get? p.name = some m := by
  rw [← Node.mem_entries_iff h, placesIn, List.mem_filterMap]
  constructor
  · rintro ⟨⟨k, m'⟩, hmem, hselect⟩
    obtain ⟨hlead, heq⟩ := Option.ite_none_right_eq_some.mp hselect
    obtain ⟨rfl, rfl⟩ := Prod.mk.inj (Option.some.inj heq)
    exact ⟨rfl, rfl, List.isPrefixOf_iff_prefix.mp hlead, k, hmem, rfl⟩
  · rintro ⟨rfl, rfl, hlead, k, hmem, hname⟩
    refine ⟨(k, m), hmem, ?_⟩
    simp only [hname, List.isPrefixOf_iff_prefix.mpr hlead, ↓reduceIte]

theorem mem_sectionPlaces (h : n.Distinct) : (p, m) ∈ sectionPlaces lead target? n ↔
    p.target? = target? ∧ p.Covered lead ∧ n.at? [.key p.table, .key p.name] = some m := by
  rw [sectionPlaces, List.mem_flatMap, Node.at?_key_cons, Option.bind_eq_some_iff]
  constructor
  · rintro ⟨table, htable, hmem⟩
    cases hfind : n.get? table with
    | none => simp [hfind] at hmem
    | some inner =>
      rw [hfind] at hmem
      obtain ⟨htarget, rfl, hlead, hm⟩ := (mem_placesIn (Node.Distinct.get? h hfind)).mp hmem
      exact ⟨htarget, ⟨htable, hlead⟩, inner, hfind, (Node.at?_key inner p.name).trans hm⟩
  · rintro ⟨htarget, ⟨htable, hlead⟩, inner, hfind, hm⟩
    refine ⟨p.table, htable, ?_⟩
    rw [hfind]
    rw [Node.at?_key] at hm
    exact (mem_placesIn (Node.Distinct.get? h hfind)).mpr ⟨htarget, rfl, hlead, hm⟩

theorem mem_targetPlaces (h : n.Distinct) : (p, m) ∈ targetPlaces lead n ↔
    ∃ target, p.target? = some target ∧ p.Covered lead ∧
      n.at? [.key target, .key p.table, .key p.name] = some m := by
  rw [targetPlaces, List.mem_flatMap]
  constructor
  · rintro ⟨⟨k, t⟩, ht, hmem⟩
    have hget : n.get? k.name = some t := (Node.mem_entries_iff h).mp ⟨k, ht, rfl⟩
    obtain ⟨htarget, hcovered, hm⟩ := (mem_sectionPlaces (Node.Distinct.get? h hget)).mp hmem
    refine ⟨k.name, htarget, hcovered, ?_⟩
    rw [Node.at?_key_cons, hget]
    exact hm
  · rintro ⟨target, htarget, hcovered, hm⟩
    rw [Node.at?_key_cons, Option.bind_eq_some_iff] at hm
    obtain ⟨t, hget, hm⟩ := hm
    obtain ⟨k, ht, rfl⟩ := (Node.mem_entries_iff h).mpr hget
    exact ⟨(k, t), ht, (mem_sectionPlaces (Node.Distinct.get? h hget)).mpr ⟨htarget, hcovered, hm⟩⟩

theorem mem_familyPlaces (h : n.Distinct) :
    (p, m) ∈ familyPlaces lead n ↔ p.Covered lead ∧ n.at? p.path = some m := by
  have htargets : (p, m) ∈ (n.get? "target".toList).elim [] (targetPlaces lead) ↔
      ∃ target, p.target? = some target ∧ p.Covered lead ∧
        n.at? [.key "target".toList, .key target, .key p.table, .key p.name] = some m := by
    cases hget : n.get? "target".toList with
    | none =>
      have hat (path : List Step) : n.at? (.key "target".toList :: path) = none := by
        rw [Node.at?_key_cons, hget, Option.bind_none]
      simp only [hat, Option.elim_none, List.not_mem_nil, reduceCtorEq, and_false, exists_false]
    | some targets =>
      have hat (path : List Step) : n.at? (.key "target".toList :: path) = targets.at? path := by
        rw [Node.at?_key_cons, hget, Option.bind_some]
      simpa only [hat, Option.elim_some] using mem_targetPlaces (Node.Distinct.get? h hget)
  rw [familyPlaces, List.mem_append, mem_sectionPlaces h, htargets]
  obtain ⟨target?, table, name⟩ := p
  cases target? with
  | none => simp [Place.path]
  | some target => simp [Place.path]

end Membership

section Nodup

variable {lead : Text} {target? : Option Text} {n : Node} {p : Place}

theorem table_of_mem_placesIn {table : Text} (h : p ∈ (placesIn lead target? table n).map Prod.fst) :
    p.target? = target? ∧ p.table = table := by
  obtain ⟨⟨p, m⟩, hmem, rfl⟩ := List.mem_map.mp h
  obtain ⟨e, -, hselect⟩ := List.mem_filterMap.mp hmem
  obtain ⟨-, heq⟩ := Option.ite_none_right_eq_some.mp hselect
  obtain ⟨rfl, -⟩ := Prod.mk.inj (Option.some.inj heq)
  exact ⟨rfl, rfl⟩

theorem mem_places_of_get? {name : Text} {f : Node → List (Place × Node)}
    (h : p ∈ ((n.get? name).elim [] f).map Prod.fst) : ∃ m, p ∈ (f m).map Prod.fst := by
  cases hget : n.get? name with
  | none => simp [hget] at h
  | some m =>
    rw [hget] at h
    exact ⟨m, h⟩

theorem target_of_mem_sectionPlaces (h : p ∈ (sectionPlaces lead target? n).map Prod.fst) : p.target? = target? := by
  rw [sectionPlaces, List.map_flatMap, List.mem_flatMap] at h
  obtain ⟨table, -, h⟩ := h
  obtain ⟨inner, h⟩ := mem_places_of_get? h
  exact (table_of_mem_placesIn h).1

theorem nodup_placesIn (table : Text) (h : n.Distinct) : ((placesIn lead target? table n).map Prod.fst).Nodup := by
  have hplaces : (placesIn lead target? table n).map Prod.fst =
      ((n.entries?.getD []).map fun e => e.1.name).filterMap fun name =>
        if lead.isPrefixOf name then some (⟨target?, table, name⟩ : Place) else none := by
    rw [placesIn, List.map_filterMap, List.filterMap_map]
    congr 1
    funext e
    by_cases hlead : lead.isPrefixOf e.1.name = true <;> simp only [Function.comp_apply, hlead, ↓reduceIte] <;> rfl
  rw [hplaces]
  apply h.names.filterMap
  intro name other p hname hother
  obtain ⟨-, hname⟩ := Option.ite_none_right_eq_some.mp hname
  obtain ⟨-, hother⟩ := Option.ite_none_right_eq_some.mp hother
  exact congrArg Place.name ((Option.some.inj hname).trans (Option.some.inj hother).symm)

theorem nodup_get? {name : Text} {f : Node → List (Place × Node)} (h : n.Distinct)
    (hf : ∀ m, m.Distinct → ((f m).map Prod.fst).Nodup) : (((n.get? name).elim [] f).map Prod.fst).Nodup := by
  cases hget : n.get? name with
  | none => exact List.nodup_nil
  | some m => exact hf m (Node.Distinct.get? h hget)

theorem nodup_sectionPlaces (h : n.Distinct) : ((sectionPlaces lead target? n).map Prod.fst).Nodup := by
  have hsections : dependencySections.Nodup := by decide
  rw [sectionPlaces, List.map_flatMap, List.nodup_flatMap]
  refine ⟨fun table _ => nodup_get? h fun m hm => nodup_placesIn table hm, hsections.imp ?_⟩
  intro table other hne p hp hother
  obtain ⟨_, hp⟩ := mem_places_of_get? hp
  obtain ⟨_, hother⟩ := mem_places_of_get? hother
  exact hne ((table_of_mem_placesIn hp).2.symm.trans (table_of_mem_placesIn hother).2)

theorem nodup_targetPlaces (h : n.Distinct) : ((targetPlaces lead n).map Prod.fst).Nodup := by
  rw [targetPlaces, List.map_flatMap, List.nodup_flatMap]
  constructor
  · rintro ⟨k, t⟩ ht
    exact nodup_sectionPlaces (Node.Distinct.get? h ((Node.mem_entries_iff h).mp ⟨k, ht, rfl⟩))
  · refine (List.pairwise_map.mp h.names).imp ?_
    intro e f hne p hp hother
    have htarget := (target_of_mem_sectionPlaces hp).symm.trans (target_of_mem_sectionPlaces hother)
    exact hne (Option.some.inj htarget)

theorem nodup_familyPlaces (h : n.Distinct) : ((familyPlaces lead n).map Prod.fst).Nodup := by
  rw [familyPlaces, List.map_append, List.nodup_append']
  refine ⟨nodup_sectionPlaces h, nodup_get? h fun m hm => nodup_targetPlaces hm, ?_⟩
  intro p hown htarget
  obtain ⟨targets, htarget⟩ := mem_places_of_get? htarget
  rw [targetPlaces, List.map_flatMap, List.mem_flatMap] at htarget
  obtain ⟨e, -, htarget⟩ := htarget
  have heq := (target_of_mem_sectionPlaces hown).symm.trans (target_of_mem_sectionPlaces htarget)
  exact nomatch heq

end Nodup

/-- Each place of the family, with what becomes of the requirement there. -/
def split (lead : Text) (root : Node) : List (Place × Outcome) :=
  (familyPlaces lead root).map fun (p, n) => (p, outcome n)

section Split

variable {lead : Text} {n m : Node} {p : Place} {o : Outcome}

theorem mem_split (h : n.Distinct) :
    (p, o) ∈ split lead n ↔ p.Covered lead ∧ ∃ m, n.at? p.path = some m ∧ outcome m = o := by
  rw [split, List.mem_map]
  constructor
  · rintro ⟨⟨p, m⟩, hmem, heq⟩
    obtain ⟨rfl, rfl⟩ := Prod.mk.inj heq
    obtain ⟨hcovered, hm⟩ := (mem_familyPlaces h).mp hmem
    exact ⟨hcovered, m, hm, rfl⟩
  · rintro ⟨hcovered, m, hm, rfl⟩
    exact ⟨(p, m), (mem_familyPlaces h).mpr ⟨hcovered, hm⟩, rfl⟩

theorem nodup_split (h : n.Distinct) : ((split lead n).map Prod.fst).Nodup := by
  rw [split, List.map_map]
  exact nodup_familyPlaces h

theorem outcome_agree (h : Node.Agree false n m) : outcome n = outcome m := by
  cases n with
  | scalar data written pad =>
    obtain ⟨written', pad', rfl, -⟩ := h.scalar
    cases data <;> rfl
  | table form es =>
    obtain ⟨form', fs, rfl⟩ := h.table
    have hinherits : inherits es = inherits fs :=
      Bool.eq_iff_iff.mpr ⟨inherits_agree h, inherits_agree h.symm⟩
    rw [outcome, outcome, hinherits]
  | array | tables =>
    have hshape := h.shape_eq
    cases m with
    | array | tables => rfl
    | scalar | table => simp [Node.shape] at hshape

theorem mem_split_agree (hn : n.Distinct) (hm : m.Distinct) (h : Node.Agree false n m) (hp : (p, o) ∈ split lead n) :
    (p, o) ∈ split lead m := by
  obtain ⟨hcovered, a, ha, rfl⟩ := (mem_split hn).mp hp
  obtain ⟨b, hb, hab⟩ := h.at? ha
  exact (mem_split hm).mpr ⟨hcovered, b, hb, (outcome_agree hab).symm⟩

theorem perm_split (hn : n.Distinct) (hm : m.Distinct) (h : Node.Agree false n m) :
    (split lead n).Perm (split lead m) := by
  have hnodup {n : Node} (hn : n.Distinct) : (split lead n).Nodup := .of_map Prod.fst (nodup_split hn)
  rw [List.perm_ext_iff_of_nodup (hnodup hn) (hnodup hm)]
  rintro ⟨p, o⟩
  exact ⟨mem_split_agree hn hm h, mem_split_agree hm hn h.symm⟩

end Split

section Outcomes

variable {lead : Text}

/-- A requirement of the family by its name, with what becomes of it. -/
def named? (lead : Text) (e : Entry) : Option (Text × Outcome) :=
  if lead.isPrefixOf e.1.name then some (e.1.name, outcome e.2) else none

def names (places : List (Place × Node)) : List (Text × Outcome) := places.map fun (p, n) => (p.name, outcome n)

theorem flatten_filterMap {α β : Type} (f : α → Option (List β)) (l : List α) :
    (l.filterMap f).flatten = l.flatMap fun a => (f a).getD [] := by
  induction l with
  | nil => rfl
  | cons a l ih =>
    rw [List.filterMap_cons, List.flatMap_cons, ← ih]
    cases f a <;> rfl

theorem names_placesIn (target? : Option Text) (table : Text) (n : Node) :
    names (placesIn lead target? table n) = (n.entries?.getD []).filterMap (named? lead) := by
  rw [names, placesIn, List.map_filterMap]
  congr 1
  funext e
  by_cases hlead : lead.isPrefixOf e.1.name = true <;> simp only [named?, hlead, ↓reduceIte] <;> rfl

theorem names_sectionPlaces (target? : Option Text) (form : TableForm) (es : List Entry) :
    names (sectionPlaces lead target? (.table form es)) = (sectionTables es).flatten.filterMap (named? lead) := by
  rw [names, sectionPlaces, List.map_flatMap, sectionTables, flatten_filterMap, List.filterMap_flatMap]
  congr 1
  funext table
  rw [show (Node.table form es).get? table = find? table es from rfl]
  cases find? table es with
  | none => rfl
  | some n => exact names_placesIn target? table n

theorem names_targetPlaces (n : Node) : names (targetPlaces lead n) =
    ((n.entries?.getD []).flatMap fun (_, t) => (t.entries?.map sectionTables).getD []).flatten.filterMap
      (named? lead) := by
  rw [names, targetPlaces, List.map_flatMap, List.flatten_eq_flatMap, List.flatMap_assoc, List.filterMap_flatMap]
  congr 1
  funext ⟨k, t⟩
  rw [← List.flatten_eq_flatMap]
  cases t with
  | table form es => exact names_sectionPlaces (some k.name) form es
  | scalar | array | tables => rfl

theorem familyOutcomes_eq (es : List Entry) :
    familyOutcomes lead es = (split lead (.table .implicit es)).map fun (p, o) => (p.name, o) := by
  have htargets : names ((find? "target".toList es).elim [] (targetPlaces lead)) =
      ((((find? "target".toList es).bind Node.entries?).getD []).flatMap fun (_, t) =>
        (t.entries?.map sectionTables).getD []).flatten.filterMap (named? lead) := by
    cases find? "target".toList es with
    | none => rfl
    | some targets => exact names_targetPlaces targets
  have hnames : names (familyPlaces lead (.table .implicit es)) =
      (coveredTables es).flatten.filterMap (named? lead) := by
    rw [coveredTables, List.flatten_append, List.filterMap_append, ← names_sectionPlaces none .implicit es,
      ← htargets]
    exact List.map_append
  rw [split, List.map_map]
  exact hnames.symm

theorem familyCount_eq (es : List Entry) :
    familyCount lead es = (split lead (.table .implicit es)).countP fun (_, o) => o = .stamped := by
  rw [familyCount, familyOutcomes_eq, List.countP_map]
  rfl

theorem familyCount_agree {es fs : List Entry} (hes : distinctEntries es) (hfs : distinctEntries fs)
    (h : Node.Agree false (.table .implicit es) (.table .implicit fs)) : familyCount lead es = familyCount lead fs := by
  rw [familyCount_eq, familyCount_eq]
  exact (perm_split (n := .table .implicit es) (m := .table .implicit fs) hes hfs h).countP_eq _

end Outcomes

end WorkspaceRelease.Stamp

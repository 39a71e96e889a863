import WorkspaceRelease.Proofs.Toml.Growth

/-!
No table of a document that was read has two entries of one name, and an array of tables has at least one
element and no elements but tables.
-/

namespace WorkspaceRelease.Toml

def IsTables (ts : List Node) : Prop := ts ≠ [] ∧ ∀ t ∈ ts, ∃ form es, t = .table form es

mutual

def Node.Distinct : Node → Prop
  | .scalar _ _ _ => True
  | .array items _ _ _ => distinctItems items
  | .table _ es => distinctEntries es
  | .tables ts => IsTables ts ∧ distinctItems ts

def distinctItems : List Node → Prop
  | [] => True
  | n :: ns => n.Distinct ∧ distinctItems ns

def distinctEntries : List (Key × Node) → Prop
  | [] => True
  | (k, n) :: es => Entries.find? k.name es = none ∧ n.Distinct ∧ distinctEntries es

end

theorem distinctItems_iff {ns : List Node} : distinctItems ns ↔ ∀ n ∈ ns, n.Distinct := by
  induction ns with
  | nil => simp [distinctItems]
  | cons n ns ih => simp [distinctItems, ih]

namespace Entries

theorem find?_append (name : Text) (es fs : List Entry) :
    find? name (es ++ fs) = (find? name es).or (find? name fs) := by
  induction es with
  | nil => simp [find?]
  | cons e es ih => by_cases h : e.1.name = name <;> simp [find?, h, ih]

theorem find?_mem {name : Text} {es : List Entry} {n : Node} (h : find? name es = some n) :
    ∃ k, (k, n) ∈ es ∧ k.name = name := by
  induction es with
  | nil => simp [find?] at h
  | cons e es ih =>
    by_cases hk : e.1.name = name
    · simp only [find?, hk, ↓reduceIte, Option.some.injEq] at h
      exact ⟨e.1, by simp [← h], hk⟩
    · simp only [find?, hk, ↓reduceIte] at h
      obtain ⟨k, hmem, hname⟩ := ih h
      exact ⟨k, List.mem_cons_of_mem _ hmem, hname⟩

theorem find?_eq_none_of_mem {name : Text} {es : List Entry} (h : find? name es = none) {k : Key} {n : Node}
    (hmem : (k, n) ∈ es) : k.name ≠ name := by
  induction es with
  | nil => simp at hmem
  | cons e es ih =>
    by_cases hk : e.1.name = name
    · simp [find?, hk] at h
    · simp only [find?, hk, ↓reduceIte] at h
      rcases List.mem_cons.mp hmem with rfl | hmem
      · exact hk
      · exact ih h hmem

theorem find?_erase_of_none {name other : Text} {es : List Entry} (h : find? name es = none) :
    find? name (erase other es) = none := by
  induction es with
  | nil => rfl
  | cons e es ih =>
    by_cases hk : e.1.name = name
    · simp [find?, hk] at h
    · simp only [find?, hk, ↓reduceIte] at h
      by_cases ho : e.1.name = other
      · simpa [erase, ho] using h
      · simp [erase, ho, find?, hk, ih h]

theorem find?_replace_none {name other : Text} {new : Node} {es : List Entry} (h : find? name es = none) :
    find? name (replace other new es) = none := by
  induction es with
  | nil => rfl
  | cons e es ih =>
    by_cases hk : e.1.name = name
    · simp [find?, hk] at h
    · simp only [find?, hk, ↓reduceIte] at h
      by_cases ho : e.1.name = other <;> simp_all [replace, find?]

end Entries

section Entries

open Entries

theorem distinctEntries_mem {es : List Entry} (h : distinctEntries es) {k : Key} {n : Node}
    (hmem : (k, n) ∈ es) : find? k.name es = some n ∧ n.Distinct := by
  induction es with
  | nil => simp at hmem
  | cons e es ih =>
    obtain ⟨hfresh, hn, hes⟩ := h
    rcases List.mem_cons.mp hmem with rfl | hmem
    · simp [find?, hn]
    · obtain ⟨hfind, hd⟩ := ih hes hmem
      have hne : e.1.name ≠ k.name := fun heq => find?_eq_none_of_mem hfresh hmem heq.symm
      exact ⟨by simpa [find?, hne] using hfind, hd⟩

theorem distinctEntries_find? {es : List Entry} (h : distinctEntries es) {name : Text} {n : Node}
    (hn : find? name es = some n) : n.Distinct := by
  obtain ⟨k, hmem, -⟩ := find?_mem hn
  exact (distinctEntries_mem h hmem).2

theorem nodup_names {es : List Entry} (h : distinctEntries es) : (es.map fun e => e.1.name).Nodup := by
  induction es with
  | nil => exact List.nodup_nil
  | cons e es ih =>
    obtain ⟨hfresh, -, hes⟩ := h
    rw [List.map_cons, List.nodup_cons]
    refine ⟨fun hmem => ?_, ih hes⟩
    obtain ⟨⟨k, n⟩, hmem, hname⟩ := List.mem_map.mp hmem
    exact find?_eq_none_of_mem hfresh hmem hname

theorem distinctEntries_append {es : List Entry} {k : Key} {n : Node} (h : distinctEntries es)
    (hk : find? k.name es = none) (hn : n.Distinct) : distinctEntries (es ++ [(k, n)]) := by
  induction es with
  | nil => exact ⟨rfl, hn, trivial⟩
  | cons e es ih =>
    obtain ⟨hfresh, he, hes⟩ := h
    have hne : e.1.name ≠ k.name := by
      intro heq
      simp [find?, heq] at hk
    have hk' : find? k.name es = none := by simpa [find?, hne] using hk
    have happend : find? e.1.name (es ++ [(k, n)]) = none := by
      simp [find?_append, hfresh, find?, Ne.symm hne]
    exact ⟨happend, he, ih hes hk'⟩

theorem distinctEntries_replace {es : List Entry} {name : Text} {n : Node} (h : distinctEntries es)
    (hn : n.Distinct) : distinctEntries (replace name n es) := by
  induction es with
  | nil => trivial
  | cons e es ih =>
    obtain ⟨hfresh, he, hes⟩ := h
    by_cases hk : e.1.name = name
    · rw [replace, if_pos hk]
      exact ⟨hfresh, hn, hes⟩
    · rw [replace, if_neg hk]
      exact ⟨find?_replace_none hfresh, he, ih hes⟩

theorem find?_erase_self {es : List Entry} (h : distinctEntries es) (name : Text) :
    find? name (erase name es) = none := by
  induction es with
  | nil => rfl
  | cons e es ih =>
    obtain ⟨hfresh, -, hes⟩ := h
    by_cases hk : e.1.name = name
    · rw [erase, if_pos hk]
      exact hk ▸ hfresh
    · rw [erase, if_neg hk, find?, if_neg hk]
      exact ih hes

theorem distinctEntries_erase {es : List Entry} (name : Text) (h : distinctEntries es) :
    distinctEntries (erase name es) := by
  induction es with
  | nil => trivial
  | cons e es ih =>
    obtain ⟨hfresh, he, hes⟩ := h
    by_cases hk : e.1.name = name
    · rw [erase, if_pos hk]
      exact hes
    · rw [erase, if_neg hk]
      exact ⟨find?_erase_of_none hfresh, he, ih hes⟩

theorem distinctEntries_alter? {key : Key} {change : Option Node → Option Node} {es fs : List Entry}
    (h : distinctEntries es)
    (hchange : ∀ old new, (∀ n, old = some n → n.Distinct) → change old = some new → new.Distinct)
    (hfs : alter? key change es = some fs) : distinctEntries fs := by
  unfold alter? at hfs
  cases hfind : find? key.name es with
  | none =>
    simp only [hfind, Option.map_eq_some_iff] at hfs
    obtain ⟨n, hn, rfl⟩ := hfs
    exact distinctEntries_append h hfind (hchange none n (by simp) hn)
  | some old =>
    simp only [hfind, Option.map_eq_some_iff] at hfs
    obtain ⟨n, hn, rfl⟩ := hfs
    refine distinctEntries_replace h (hchange (some old) n ?_ hn)
    rintro m ⟨rfl⟩
    exact distinctEntries_find? h hfind

end Entries

namespace Node

variable {name : Text} {n m : Node}

theorem Distinct.get? (h : n.Distinct) (hm : n.get? name = some m) : m.Distinct := by
  cases n with
  | table form es => exact distinctEntries_find? h hm
  | scalar | array | tables => exact nomatch hm

theorem Distinct.names (h : n.Distinct) : ((n.entries?.getD []).map fun e => e.1.name).Nodup := by
  cases n with
  | table form es => exact nodup_names h
  | scalar | array | tables => exact List.nodup_nil

theorem mem_entries_iff (h : n.Distinct) :
    (∃ k, (k, m) ∈ n.entries?.getD [] ∧ k.name = name) ↔ n.get? name = some m := by
  cases n with
  | table form es =>
    constructor
    · rintro ⟨k, hmem, rfl⟩
      exact (distinctEntries_mem h hmem).1
    · exact Entries.find?_mem
  | scalar | array | tables => simp [entries?, get?]

end Node

section Tree

variable {f : List Entry → Option (List Entry)}

theorem distinctItems_changeLast? (hf : ∀ es fs, distinctEntries es → f es = some fs → distinctEntries fs)
    {ts us : List Node} (h : distinctItems ts) (hus : changeLast? f ts = some us) : distinctItems us := by
  induction ts using changeLast?.induct generalizing us with
  | case1 => simp [changeLast?] at hus
  | case2 form es =>
    simp only [changeLast?, Option.map_eq_some_iff] at hus
    obtain ⟨fs, hfs, rfl⟩ := hus
    exact ⟨hf es fs h.1 hfs, trivial⟩
  | case3 n hn => simp [changeLast?] at hus
  | case4 n ns hne hne' ih =>
    rw [changeLast?] at hus
    · simp only [Option.map_eq_some_iff] at hus
      obtain ⟨vs, hvs, rfl⟩ := hus
      exact ⟨h.1, ih h.2 hvs⟩
    · exact hne
    · exact hne'

theorem isTables_changeLast? {ts us : List Node} (h : IsTables ts) (hus : changeLast? f ts = some us) :
    IsTables us := by
  obtain ⟨-, htables⟩ := h
  induction ts using changeLast?.induct generalizing us with
  | case1 => simp [changeLast?] at hus
  | case2 form es =>
    simp only [changeLast?, Option.map_eq_some_iff] at hus
    obtain ⟨fs, -, rfl⟩ := hus
    exact ⟨by simp, by simp⟩
  | case3 n hn => simp [changeLast?] at hus
  | case4 n ns hne hne' ih =>
    rw [changeLast?] at hus
    · simp only [Option.map_eq_some_iff] at hus
      obtain ⟨vs, hvs, rfl⟩ := hus
      obtain ⟨hn, hns⟩ := List.forall_mem_cons.mp htables
      exact ⟨by simp, List.forall_mem_cons.mpr ⟨hn, (ih hvs hns).2⟩⟩
    · exact hne
    · exact hne'

theorem growth_distinct : HeaderGrowth distinctEntries Node.Distinct where
  nil := trivial
  alter? := distinctEntries_alter?
  table _ h := ⟨h, fun _ => id⟩
  tables hf h hus := ⟨isTables_changeLast? h.1 hus, distinctItems_changeLast? hf h.2 hus⟩
  find? h hn := distinctEntries_find? h hn
  moveLast h hn := distinctEntries_append (distinctEntries_erase _ h) (find?_erase_self h _) hn
  dotted := id
  implicit := id
  headed := id
  firstElement h := ⟨⟨by simp, by simp⟩, h, trivial⟩
  nextElement := by
    rintro place pad ts es ⟨⟨-, htables⟩, hts⟩ hes
    refine ⟨⟨by simp, ?_⟩, distinctItems_iff.mpr ?_⟩
    · exact List.forall_mem_append.mpr ⟨htables, by simp⟩
    · exact List.forall_mem_append.mpr ⟨distinctItems_iff.mp hts, List.forall_mem_singleton.mpr hes⟩

end Tree

end WorkspaceRelease.Toml

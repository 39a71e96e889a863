import WorkspaceRelease.Proofs.Toml.Reading

/-!
Where nodes of each form stand. A document that was read has headers and dotted keys among its entries only, and
dotted keys of their own between braces.
-/

namespace WorkspaceRelease.Toml

/-- A place for a node: a value, a field between braces, an entry of a table without braces, or an element of an
array of tables. -/
inductive Site where
  | value
  | field
  | entry
  | element
  deriving DecidableEq, Repr

mutual

def Node.Fits (site : Site) : Node → Prop
  | .scalar _ _ _ => site ≠ .element
  | .array items _ _ _ => site ≠ .element ∧ itemsFit .value items
  | .table form es =>
    match form with
    | .inline _ _ => site ≠ .element ∧ entriesFit .field es
    | .inlineDotted => site = .field ∧ entriesFit .field es
    | .dotted => site = .entry ∧ entriesFit .entry es
    | .implicit => site = .entry ∧ entriesFit .entry es
    | .headed _ _ => (site = .entry ∨ site = .element) ∧ entriesFit .entry es
  | .tables ts => site = .entry ∧ itemsFit .element ts

def itemsFit (site : Site) : List Node → Prop
  | [] => True
  | n :: ns => n.Fits site ∧ itemsFit site ns

def entriesFit (site : Site) : List (Key × Node) → Prop
  | [] => True
  | (_, n) :: es => n.Fits site ∧ entriesFit site es

end

variable {site : Site}

theorem itemsFit_iff {ns : List Node} : itemsFit site ns ↔ ∀ n ∈ ns, n.Fits site := by
  induction ns with
  | nil => simp [itemsFit]
  | cons n ns ih => simp [itemsFit, ih]

theorem entriesFit_iff {es : List Entry} : entriesFit site es ↔ ∀ e ∈ es, e.2.Fits site := by
  induction es with
  | nil => simp [entriesFit]
  | cons e es ih => simp [entriesFit, ih]

theorem Node.Fits.of_value {n : Node} (h : n.Fits .value) (hsite : site ≠ .element) : n.Fits site := by
  match n, h with
  | .scalar _ _ _, _ => exact hsite
  | .array _ _ _ _, ⟨_, hitems⟩ => exact ⟨hsite, hitems⟩
  | .table (.inline _ _) _, ⟨_, hes⟩ => exact ⟨hsite, hes⟩

theorem Node.Fits.withPad {n : Node} (h : n.Fits site) (pad : Padding) : (n.withPad pad).Fits site := by
  unfold Node.withPad
  split <;> exact h

section Entries

open Entries

theorem mem_replace {name : Text} {new : Node} {es : List Entry} {e : Entry} (h : e ∈ replace name new es) :
    e.2 = new ∨ e ∈ es := by
  induction es with
  | nil => simp [replace] at h
  | cons f es ih =>
    by_cases hk : f.1.name = name
    · rw [replace, if_pos hk, List.mem_cons] at h
      rcases h with rfl | h
      · exact .inl rfl
      · exact .inr (List.mem_cons_of_mem _ h)
    · rw [replace, if_neg hk, List.mem_cons] at h
      rcases h with rfl | h
      · exact .inr List.mem_cons_self
      · exact (ih h).imp id (List.mem_cons_of_mem _)

theorem mem_erase {name : Text} {es : List Entry} {e : Entry} (h : e ∈ erase name es) : e ∈ es := by
  induction es with
  | nil => exact h
  | cons f es ih =>
    by_cases hk : f.1.name = name
    · rw [erase, if_pos hk] at h
      exact List.mem_cons_of_mem _ h
    · rw [erase, if_neg hk, List.mem_cons] at h
      exact List.mem_cons.mpr (h.imp id ih)

theorem entriesFit_find? {es : List Entry} (h : entriesFit site es) {name : Text} {n : Node}
    (hn : find? name es = some n) : n.Fits site := by
  obtain ⟨k, hmem, -⟩ := find?_mem hn
  exact entriesFit_iff.mp h _ hmem

theorem entriesFit_append {es : List Entry} {k : Key} {n : Node} (h : entriesFit site es) (hn : n.Fits site) :
    entriesFit site (es ++ [(k, n)]) :=
  entriesFit_iff.mpr (List.forall_mem_append.mpr ⟨entriesFit_iff.mp h, by simpa using hn⟩)

/-- What holds of every node among the entries holds after a change that keeps it. -/
theorem forall_alter? {node : Node → Prop} {key : Key} {change : Option Node → Option Node} {es fs : List Entry}
    (h : ∀ e ∈ es, node e.2)
    (hchange : ∀ old new, (∀ n, old = some n → node n) → change old = some new → node new)
    (hfs : alter? key change es = some fs) : ∀ e ∈ fs, node e.2 := by
  have hold : ∀ n, find? key.name es = some n → node n := by
    intro n hn
    obtain ⟨k, hmem, -⟩ := find?_mem hn
    exact h _ hmem
  unfold alter? at hfs
  cases hfind : find? key.name es with
  | none =>
    simp only [hfind, Option.map_eq_some_iff] at hfs
    obtain ⟨new, hnew, rfl⟩ := hfs
    have hnode : node new := hchange none new (by simp) hnew
    exact List.forall_mem_append.mpr ⟨h, List.forall_mem_singleton.mpr hnode⟩
  | some old =>
    simp only [hfind, Option.map_eq_some_iff] at hfs
    obtain ⟨new, hnew, rfl⟩ := hfs
    have hnode : node new := hchange (some old) new (by simpa [hfind] using hold) hnew
    intro e he
    rcases mem_replace he with heq | he
    · exact heq ▸ hnode
    · exact h e he

end Entries

section Tree

variable {f : List Entry → Option (List Entry)}

theorem itemsFit_changeLast? (hf : ∀ es fs, entriesFit .entry es → f es = some fs → entriesFit .entry fs)
    {ts us : List Node} (h : itemsFit .element ts) (hus : changeLast? f ts = some us) : itemsFit .element us := by
  induction ts using changeLast?.induct generalizing us with
  | case1 => simp [changeLast?] at hus
  | case2 form es =>
    simp only [changeLast?, Option.map_eq_some_iff] at hus
    obtain ⟨fs, hfs, rfl⟩ := hus
    obtain ⟨hform, -⟩ := h
    cases form with
    | headed => exact ⟨⟨hform.1, hf es fs hform.2 hfs⟩, trivial⟩
    | inline | inlineDotted | dotted | implicit => simp [Node.Fits] at hform
  | case3 n hn => simp [changeLast?] at hus
  | case4 n ns hne hne' ih =>
    rw [changeLast?] at hus
    · simp only [Option.map_eq_some_iff] at hus
      obtain ⟨vs, hvs, rfl⟩ := hus
      exact ⟨h.1, ih h.2 hvs⟩
    · exact hne
    · exact hne'

theorem growth_fits (hsite : site ≠ .element) : Growth (entriesFit site) (Node.Fits site) where
  nil := trivial
  alter? h hchange hfs := entriesFit_iff.mpr (forall_alter? (entriesFit_iff.mp h) hchange hfs)
  table := by
    rintro form es hform h
    cases form with
    | inline preamble pad => exact absurd rfl (hform preamble pad)
    | inlineDotted | dotted | implicit =>
      obtain ⟨rfl, hes⟩ := h
      exact ⟨hes, fun fs hfs => ⟨rfl, hfs⟩⟩
    | headed =>
      obtain ⟨hplace, hes⟩ := h
      obtain rfl := hplace.resolve_right hsite
      exact ⟨hes, fun fs hfs => ⟨.inl rfl, hfs⟩⟩
  tables := by
    rintro f ts us hf ⟨rfl, hitems⟩ hus
    exact ⟨rfl, itemsFit_changeLast? hf hitems hus⟩

theorem headerGrowth_fits : HeaderGrowth (entriesFit .entry) (Node.Fits .entry) where
  toGrowth := growth_fits (by decide)
  find? h hn := entriesFit_find? h hn
  moveLast h hn := entriesFit_append (entriesFit_iff.mpr fun e he => entriesFit_iff.mp h e (mem_erase he)) hn
  dotted h := ⟨rfl, h⟩
  implicit h := ⟨rfl, h⟩
  headed h := ⟨.inl rfl, h⟩
  firstElement h := ⟨rfl, ⟨.inr rfl, h⟩, trivial⟩
  nextElement := by
    rintro place pad ts es ⟨-, hts⟩ hes
    have helement : (Node.table (.headed place pad) es).Fits .element := ⟨.inr rfl, hes⟩
    exact ⟨rfl, itemsFit_iff.mpr (List.forall_mem_append.mpr ⟨itemsFit_iff.mp hts, by simpa using helement⟩)⟩

theorem fits_inlineDotted {es : List Entry} (h : entriesFit .field es) : (Node.table .inlineDotted es).Fits .field :=
  ⟨rfl, h⟩

theorem fits_field {path : List Key} {n : Node} (hn : n.Fits .value) {es fs : List Entry} (h : entriesFit .field es)
    (hfs : assign? .inlineDotted path n es = some fs) : entriesFit .field fs :=
  (growth_fits (by decide)).assign? (fun _ => fits_inlineDotted) path (hn.of_value (by decide)) h hfs

end Tree

def fitsInvariant : ReadInvariant where
  value := Node.Fits .value
  fields := entriesFit .field
  entries := entriesFit .entry
  scalar _ _ _ := Site.noConfusion
  array hitems _ _ _ := ⟨Site.noConfusion, itemsFit_iff.mpr hitems⟩
  inline hes _ _ := ⟨Site.noConfusion, hes⟩
  withPad := Node.Fits.withPad
  noFields := trivial
  noEntries := trivial
  field hn _ hes hfs := fits_field (hn.withPad _) hes hfs
  assign hn hes hfs := headerGrowth_fits.assign? (fun _ => headerGrowth_fits.dotted) _ (hn.of_value (by decide)) hes hfs
  openSection {_ s _ _} hs hes hfs :=
    headerGrowth_fits.openSection? (fun a ha => (hs a ha).of_value (by decide)) s.path hes hfs

theorem fits_read {t : Text} {d : Document} (h : Document.read t = .ok d) : entriesFit .entry d.entries :=
  fitsInvariant.read h

end WorkspaceRelease.Toml

import WorkspaceRelease.Toml.Document

/-!
How a tree grows, an assignment and a header at a time. A property of entries and of nodes that holds of each kind of
change holds of the whole.
-/

namespace WorkspaceRelease.Toml

/-- Properties of the entries and the nodes of a tree that assignments keep. -/
structure Growth (entries : List Entry → Prop) (node : Node → Prop) : Prop where
  nil : entries []
  alter? {key : Key} {change : Option Node → Option Node} {es fs : List Entry} : entries es →
    (∀ old new, (∀ n, old = some n → node n) → change old = some new → node new) →
    Entries.alter? key change es = some fs → entries fs
  table {form : TableForm} {es : List Entry} : (∀ preamble pad, form ≠ .inline preamble pad) →
    node (.table form es) → entries es ∧ ∀ fs, entries fs → node (.table form fs)
  tables {f : List Entry → Option (List Entry)} {ts us : List Node} :
    (∀ es fs, entries es → f es = some fs → entries fs) → node (.tables ts) → changeLast? f ts = some us →
    node (.tables us)

/-- Properties that headers keep as well. -/
structure HeaderGrowth (entries : List Entry → Prop) (node : Node → Prop) : Prop extends Growth entries node where
  find? {name : Text} {es : List Entry} {n : Node} : entries es → Entries.find? name es = some n → node n
  moveLast {key : Key} {es : List Entry} {n : Node} : entries es → node n →
    entries (Entries.erase key.name es ++ [(key, n)])
  dotted {es : List Entry} : entries es → node (.table .dotted es)
  implicit {es : List Entry} : entries es → node (.table .implicit es)
  headed {place : Nat} {pad : Padding} {es : List Entry} : entries es → node (.table (.headed place pad) es)
  firstElement {place : Nat} {pad : Padding} {es : List Entry} : entries es →
    node (.tables [.table (.headed place pad) es])
  nextElement {place : Nat} {pad : Padding} {ts : List Node} {es : List Entry} : node (.tables ts) → entries es →
    node (.tables (ts ++ [.table (.headed place pad) es]))

theorem openTable?_eq_some {place : Nat} {s : Section} {key : Key} {es fs : List Entry}
    (h : openTable? place s key es = some fs) : ∃ inner filled,
      (inner = [] ∨ Entries.find? key.name es = some (.table .implicit inner)) ∧
      assignAll? .dotted inner s.body = some filled ∧
      fs = Entries.erase key.name es ++ [(key, .table (.headed place s.pad) filled)] := by
  unfold openTable? at h
  cases hfind : Entries.find? key.name es with
  | none =>
    simp only [hfind, Option.bind_eq_bind, Option.bind_some, Option.bind_eq_some_iff] at h
    obtain ⟨filled, hfilled, h⟩ := h
    exact ⟨[], filled, .inl rfl, hfilled, (Option.some.inj h).symm⟩
  | some old =>
    rw [hfind] at h
    split at h
    · contradiction
    next inner hold =>
      simp only [Option.bind_eq_bind, Option.bind_some, Option.bind_eq_some_iff] at h
      obtain ⟨filled, hfilled, h⟩ := h
      exact ⟨inner, filled, .inr hold, hfilled, (Option.some.inj h).symm⟩
    · simp at h

section Assignments

variable {entries : List Entry → Prop} {node : Node → Prop}

/-- A property that each assignment keeps, all of them keep. -/
theorem assignAll?_keeps {value : Node → Prop} {form : TableForm}
    (hassign : ∀ path n es fs, value n → entries es → assign? form path n es = some fs → entries fs)
    {as : List Assignment} (has : ∀ a ∈ as, value a.value) {es fs : List Entry} (h : entries es)
    (hfs : assignAll? form es as = some fs) : entries fs := by
  induction as generalizing es with
  | nil =>
    obtain rfl : es = fs := by simpa [assignAll?] using hfs
    exact h
  | cons a as ih =>
    simp only [assignAll?, List.foldlM_cons, Option.bind_eq_bind, Option.bind_eq_some_iff] at hfs
    obtain ⟨gs, hgs, hfs⟩ := hfs
    exact ih (fun b hb => has b (List.mem_cons_of_mem _ hb))
      (hassign a.path a.value es gs (has a List.mem_cons_self) h hgs) hfs

namespace Growth

variable (G : Growth entries node) {f : List Entry → Option (List Entry)}
include G

theorem extendDotted? {form : TableForm} (hform : ∀ es, entries es → node (.table form es))
    (hf : ∀ es fs, entries es → f es = some fs → entries fs) {passing : Bool} {old : Option Node} {new : Node}
    (h : ∀ n, old = some n → node n) (hnew : extendDotted? passing form f old = some new) : node new := by
  unfold Toml.extendDotted? at hnew
  split at hnew
  case h_1 =>
    simp only [Option.map_eq_some_iff] at hnew
    obtain ⟨fs, hfs, rfl⟩ := hnew
    exact hform fs (hf [] fs G.nil hfs)
  case h_2 | h_3 =>
    simp only [Option.map_eq_some_iff] at hnew
    obtain ⟨fs, hfs, rfl⟩ := hnew
    obtain ⟨hes, htable⟩ := G.table (fun _ _ => TableForm.noConfusion) (h _ rfl)
    exact htable fs (hf _ fs hes hfs)
  case h_4 =>
    simp only [Option.ite_none_right_eq_some, Option.map_eq_some_iff] at hnew
    obtain ⟨-, fs, hfs, rfl⟩ := hnew
    obtain ⟨hes, htable⟩ := G.table (fun _ _ => TableForm.noConfusion) (h _ rfl)
    exact htable fs (hf _ fs hes hfs)
  case h_5 =>
    simp only [Option.ite_none_right_eq_some, Option.map_eq_some_iff] at hnew
    obtain ⟨-, us, hus, rfl⟩ := hnew
    exact G.tables hf (h _ rfl) hus
  case h_6 => simp at hnew

theorem assign? {form : TableForm} (hform : ∀ es, entries es → node (.table form es)) (path : List Key) {n : Node}
    (hn : node n) {es fs : List Entry} (h : entries es) (hfs : assign? form path n es = some fs) : entries fs := by
  induction path generalizing es fs with
  | nil => simp [Toml.assign?] at hfs
  | cons k ks ih =>
    cases ks with
    | nil =>
      refine G.alter? h ?_ hfs
      intro old new _ hnew
      simp only [Option.ite_none_right_eq_some, Option.some.injEq] at hnew
      exact hnew.2 ▸ hn
    | cons l ks =>
      exact G.alter? h (fun old new hold hnew => G.extendDotted? hform (fun es fs hes hfs => ih hes hfs) hold hnew) hfs

end Growth

namespace HeaderGrowth

variable (G : HeaderGrowth entries node) {f : List Entry → Option (List Entry)}
include G

theorem assignAll? {as : List Assignment} (has : ∀ a ∈ as, node a.value) {es fs : List Entry} (h : entries es)
    (hfs : assignAll? .dotted es as = some fs) : entries fs :=
  assignAll?_keeps (fun path _ _ _ hn hes => G.assign? (fun _ => G.dotted) path hn hes) has h hfs

theorem enterParent? (hf : ∀ es fs, entries es → f es = some fs → entries fs) {old : Option Node} {new : Node}
    (h : ∀ n, old = some n → node n) (hnew : enterParent? f old = some new) : node new := by
  unfold Toml.enterParent? at hnew
  split at hnew
  case h_1 =>
    simp only [Option.map_eq_some_iff] at hnew
    obtain ⟨fs, hfs, rfl⟩ := hnew
    exact G.implicit (hf [] fs G.nil hfs)
  case h_2 | h_3 | h_4 =>
    simp only [Option.map_eq_some_iff] at hnew
    obtain ⟨fs, hfs, rfl⟩ := hnew
    obtain ⟨hes, htable⟩ := G.table (fun _ _ => TableForm.noConfusion) (h _ rfl)
    exact htable fs (hf _ fs hes hfs)
  case h_5 =>
    simp only [Option.map_eq_some_iff] at hnew
    obtain ⟨us, hus, rfl⟩ := hnew
    exact G.tables hf (h _ rfl) hus
  case h_6 => simp at hnew

variable {place : Nat} {s : Section} (hs : ∀ a ∈ s.body, node a.value) {key : Key} {es fs : List Entry}
include hs

theorem openTable? (h : entries es) (hfs : openTable? place s key es = some fs) : entries fs := by
  obtain ⟨inner, filled, hinner, hfilled, rfl⟩ := openTable?_eq_some hfs
  have hentries : entries inner := by
    rcases hinner with rfl | hfind
    · exact G.nil
    · exact (G.table (fun _ _ => TableForm.noConfusion) (G.find? h hfind)).1
  exact G.moveLast h (G.headed (G.assignAll? hs hentries hfilled))

theorem openElement? (h : entries es) (hfs : openElement? place s key es = some fs) : entries fs := by
  simp only [Toml.openElement?, Option.bind_eq_bind, Option.bind_eq_some_iff, Option.map_eq_some_iff] at hfs
  obtain ⟨element, ⟨inner, hinner, rfl⟩, hfs⟩ := hfs
  have hentries : entries inner := G.assignAll? hs G.nil hinner
  refine G.alter? h ?_ hfs
  intro old new hold hnew
  split at hnew
  · exact Option.some.inj hnew ▸ G.firstElement hentries
  · exact Option.some.inj hnew ▸ G.nextElement (hold _ rfl) hentries
  · simp at hnew

theorem openSection? (path : List Key) (h : entries es) (hfs : openSection? place s path es = some fs) :
    entries fs := by
  induction path generalizing es fs with
  | nil => simp [Toml.openSection?] at hfs
  | cons k ks ih =>
    cases ks with
    | nil =>
      simp only [Toml.openSection?] at hfs
      split at hfs
      · exact G.openTable? hs h hfs
      · exact G.openElement? hs h hfs
    | cons l ks =>
      exact G.alter? h (fun old new hold hnew => G.enterParent? (fun es fs hes hfs => ih hes hfs) hold hnew) hfs

end HeaderGrowth

end Assignments

end WorkspaceRelease.Toml

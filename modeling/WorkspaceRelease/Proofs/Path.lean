import WorkspaceRelease.Path
import WorkspaceRelease.Proofs.Text

/-!
Joining writes one path behind another, and the components of the result are those of both. Taking the first path off
leaves the second one from its first step on.
-/

namespace WorkspaceRelease.Path

open Text

variable {base m p r : Path}

section Join

/-- A base as it stands before what is joined to it. -/
def slashed (base : Path) : Path := if base.isEmpty || base.getLast? = some '/' then base else base ++ ['/']

theorem join_of_isAbsolute (h : m.isAbsolute = true) (base : Path) : base.join m = m := if_pos h

theorem join_eq_slashed (h : m.isAbsolute = false) (base : Path) : base.join m = base.slashed ++ m := by
  simp only [join, slashed, h, Bool.false_eq_true, ↓reduceIte]
  split <;> simp

theorem nil_join (m : Path) : join [] m = m := by
  cases h : m.isAbsolute with
  | true => exact join_of_isAbsolute h []
  | false => exact join_eq_slashed h []

theorem slashed_slashed (base : Path) : base.slashed.slashed = base.slashed := by
  by_cases h : (base.isEmpty || base.getLast? = some '/') = true
  · have hbase : base.slashed = base := if_pos h
    rw [hbase, hbase]
  · have hbase : base.slashed = base ++ ['/'] := if_neg h
    rw [hbase]
    exact if_pos (by simp)

theorem slashed_append (s : Path) {m : Path} (hm : m ≠ []) : slashed (s ++ m) = s ++ m.slashed := by
  have hlast : (s ++ m).getLast? = m.getLast? := List.getLast?_append_of_ne_nil s hm
  have hempty : (s ++ m).isEmpty = false := by simp [hm]
  have hempty' : m.isEmpty = false := by simp [hm]
  unfold slashed
  rw [hlast, hempty, hempty', Bool.false_or]
  split
  · rfl
  · exact List.append_assoc ..

theorem isAbsolute_join (h : r.isAbsolute = false) (m : Path) : (m.join r).isAbsolute = m.isAbsolute := by
  cases m with
  | nil => rw [nil_join, h]; rfl
  | cons c m =>
    rw [join_eq_slashed h]
    simp only [isAbsolute, slashed]
    split <;> rfl

theorem join_assoc (base m r : Path) : (base.join m).join r = base.join (m.join r) := by
  cases hr : r.isAbsolute with
  | true => rw [join_of_isAbsolute hr, join_of_isAbsolute hr, join_of_isAbsolute hr]
  | false =>
    have hmr : (m.join r).isAbsolute = m.isAbsolute := isAbsolute_join hr m
    cases hm : m.isAbsolute with
    | true => rw [join_of_isAbsolute hm, join_of_isAbsolute (hmr.trans hm)]
    | false =>
      have hslashed : slashed (base.slashed ++ m) = base.slashed ++ m.slashed := by
        by_cases hnil : m = []
        · subst hnil
          rw [List.append_nil, slashed_slashed]
          exact (List.append_nil _).symm
        · exact slashed_append _ hnil
      rw [join_eq_slashed hm, join_eq_slashed hr, join_eq_slashed (hmr.trans hm), join_eq_slashed hr, hslashed,
        List.append_assoc]

end Join

section Components

/-- The segments that name a step. -/
def steps (segments : List Text) : List Text := segments.filter fun segment => !isIdle segment

theorem steps_append (xs ys : List Text) : steps (xs ++ ys) = steps xs ++ steps ys := List.filter_append ..

theorem steps_cons_idle {x : Text} (h : isIdle x = true) (xs : List Text) : steps (x :: xs) = steps xs :=
  List.filter_cons_of_neg (by simp [h])

theorem steps_cons_step {x : Text} (h : isIdle x = false) (xs : List Text) : steps (x :: xs) = x :: steps xs :=
  List.filter_cons_of_pos (by simp [h])

theorem components_eq (p : Path) : p.components = p.start.1 ++ steps p.start.2 := rfl

/-- Whether a path opens with the root or a dot is settled before its first slash. -/
theorem start_append_slash (s : Path) : ∃ first rest, (∀ m, start (s ++ '/' :: m) = (first, rest ++ splitOn '/' m)) ∧
    (s ≠ [] → s.start = (first, rest)) := by
  obtain ⟨x, xs, hs⟩ := List.exists_cons_of_ne_nil (splitOn_ne_nil '/' s)
  have hsplit (m : Path) : splitOn '/' (s ++ '/' :: m) = x :: (xs ++ splitOn '/' m) := by
    rw [splitOn_append_cons, hs, List.cons_append]
  by_cases hroot : x = []
  · subst hroot
    refine ⟨[['/']], xs, fun m => ?_, fun hne => ?_⟩
    · obtain ⟨y, ys, hy⟩ := List.exists_cons_of_ne_nil (l := xs ++ splitOn '/' m) (by simp [splitOn_ne_nil])
      simp only [start, hsplit, hy]
    · cases xs with
      | nil =>
        have hjoin := joinWith_splitOn '/' s
        rw [hs] at hjoin
        exact absurd hjoin.symm hne
      | cons y ys => simp only [start, hs]
  · by_cases hdot : x = ['.']
    · subst hdot
      exact ⟨[['.']], xs, fun m => by simp only [start, hsplit], fun _ => by simp only [start, hs]⟩
    · refine ⟨[], x :: xs, fun m => ?_, fun _ => ?_⟩
      · simp only [start, hsplit]
        split <;> simp_all
      · simp only [start, hs]
        split <;> simp_all

theorem start_join (hm : m.isAbsolute = false) (hbase : base ≠ []) :
    ∃ rest, (base.join m).start = (base.start.1, rest ++ splitOn '/' m) ∧ steps rest = steps base.start.2 := by
  have hslashed : ∃ s, base.slashed = s ++ ['/'] ∧ (s = base ∨ s ++ ['/'] = base) := by
    unfold slashed
    split
    next h =>
      obtain ⟨s, hs⟩ := List.getLast?_eq_some_iff.mp (by simpa [hbase] using h)
      exact ⟨s, hs, .inr hs.symm⟩
    next => exact ⟨base, rfl, .inl rfl⟩
  obtain ⟨s, hs, hends⟩ := hslashed
  obtain ⟨first, rest, hstart, hself⟩ := start_append_slash s
  have hjoin : (base.join m).start = (first, rest ++ splitOn '/' m) := by
    rw [join_eq_slashed hm, hs, List.append_assoc]
    exact hstart m
  rcases hends with rfl | rfl
  · rw [hself hbase]
    exact ⟨rest, hjoin, rfl⟩
  · rw [hstart []]
    exact ⟨rest, hjoin, by simp [steps, splitOn, isIdle]⟩

theorem components_join (hm : m.isAbsolute = false) (hbase : base ≠ []) :
    (base.join m).components = base.components ++ steps (splitOn '/' m) := by
  obtain ⟨rest, hstart, hrest⟩ := start_join hm hbase
  rw [components_eq, components_eq, hstart, steps_append, hrest, List.append_assoc]

end Components

section Below

theorem dropComponents_append (taken segments : List Text) :
    dropComponents (steps taken) (taken ++ segments) = some (segments.dropWhile isIdle) := by
  induction taken with
  | nil => rfl
  | cons x xs ih =>
    cases hx : isIdle x with
    | true =>
      have hdrop (cs rest : List Text) : dropComponents cs (x :: rest) = dropComponents cs rest := by
        cases cs <;> simp only [dropComponents, List.dropWhile_cons_of_pos hx]
      rw [steps_cons_idle hx, List.cons_append, hdrop, ih]
    | false =>
      have hkeep : (x :: (xs ++ segments)).dropWhile isIdle = x :: (xs ++ segments) :=
        List.dropWhile_cons_of_neg (by simp [hx])
      simp only [steps_cons_step hx, List.cons_append, dropComponents, hkeep, ↓reduceIte, ih]

theorem dropComponents_eq_some {cs segments rest : List Text} (h : dropComponents cs segments = some rest) :
    ∃ taken, segments = taken ++ rest ∧ steps taken = cs ∧ ∀ x, rest.head? = some x → isIdle x = false := by
  have hidle (xs : List Text) : steps (xs.takeWhile isIdle) = [] :=
    List.filter_eq_nil_iff.mpr fun x hx => by simp [List.mem_takeWhile_imp hx]
  have hhead (xs : List Text) (x : Text) (hx : (xs.dropWhile isIdle).head? = some x) : isIdle x = false := by
    simpa [hx] using List.head?_dropWhile_not isIdle xs
  induction cs generalizing segments with
  | nil =>
    obtain rfl := Option.some.inj h
    exact ⟨_, List.takeWhile_append_dropWhile.symm, hidle _, hhead _⟩
  | cons c cs ih =>
    cases hsegments : segments.dropWhile isIdle with
    | nil => simp [dropComponents, hsegments] at h
    | cons x xs =>
      simp only [dropComponents, hsegments] at h
      obtain ⟨rfl, hdrop⟩ := Option.ite_none_right_eq_some.mp h
      obtain ⟨taken, rfl, hsteps, hrest⟩ := ih hdrop
      have hx : isIdle x = false := hhead segments x (by rw [hsegments]; rfl)
      refine ⟨segments.takeWhile isIdle ++ x :: taken, ?_, ?_, hrest⟩
      · rw [List.append_assoc, List.cons_append, ← hsegments, List.takeWhile_append_dropWhile]
      · rw [steps_append, hidle, steps_cons_step hx, hsteps, List.nil_append]

/-- The text of segments of which the first names a step. -/
theorem components_joinWith {segments : List Text} (hslash : ∀ x ∈ segments, '/' ∉ x)
    (hhead : ∀ x, segments.head? = some x → isIdle x = false) :
    isAbsolute (joinWith ['/'] segments) = false ∧ components (joinWith ['/'] segments) = steps segments ∧
      steps (splitOn '/' (joinWith ['/'] segments)) = steps segments := by
  cases segments with
  | nil => exact ⟨rfl, rfl, rfl⟩
  | cons x xs =>
    have hsplit : splitOn '/' (joinWith ['/'] (x :: xs)) = x :: xs := splitOn_joinWith (by simp) hslash
    have hx : isIdle x = false := hhead x rfl
    refine ⟨?_, ?_, by rw [hsplit]⟩
    · obtain ⟨c, s, rfl⟩ : ∃ c s, x = c :: s := List.exists_cons_of_ne_nil (by rintro rfl; simp [isIdle] at hx)
      have hc : c ≠ '/' := by
        rintro rfl
        exact hslash _ List.mem_cons_self List.mem_cons_self
      cases xs <;> simp [isAbsolute, joinWith, hc]
    · rw [components_eq, start, hsplit]
      split
      next heq => simp [isIdle, (List.cons.inj heq).1] at hx
      next heq => simp [isIdle, (List.cons.inj heq).1] at hx
      next => rfl

theorem start_cases (p : Path) : p.start.1 = [] ∨ ∃ first, p.start.1 = [first] := by
  unfold start
  split <;> simp

theorem mem_start {x : Text} (h : x ∈ p.start.2) : '/' ∉ x := by
  have hmem : x ∈ splitOn '/' p := by
    unfold start at h
    split at h
    next heq => rw [heq]; exact List.mem_cons_of_mem _ h
    next heq => rw [heq]; exact List.mem_cons_of_mem _ h
    next => exact h
  exact not_mem_of_mem_splitOn hmem

theorem components_ne_nil (h : base ≠ []) : base.components ≠ [] := by
  rw [components_eq, start]
  split
  · simp
  · simp
  next hroot hdot =>
    obtain ⟨x, xs, hs⟩ := List.exists_cons_of_ne_nil (splitOn_ne_nil '/' base)
    have hx : isIdle x = false := by
      have hne : x ≠ [] := by
        rintro rfl
        cases xs with
        | nil => exact h (by rw [← joinWith_splitOn '/' base, hs]; rfl)
        | cons y ys => exact hroot y ys hs
      have hne' : x ≠ ['.'] := fun heq => hdot xs (heq ▸ hs)
      simp [isIdle, hne, hne']
    rw [hs, List.nil_append, steps_cons_step hx]
    simp

theorem below?_nil (p : Path) : p.below? [] = some p := rfl

theorem components_of_below? (h : p.below? base = some r) :
    p.components = base.components ++ r.components ∧ (base.join r).components = p.components := by
  by_cases hbase : base = []
  · subst hbase
    obtain rfl := Option.some.inj h
    exact ⟨rfl, by rw [nil_join]⟩
  · obtain ⟨c, cs, hc⟩ := List.exists_cons_of_ne_nil (components_ne_nil hbase)
    obtain ⟨taken, rest, hsegments, htaken, hhead, rfl⟩ : ∃ taken rest, p.start.2 = taken ++ rest ∧
        p.start.1 ++ steps taken = base.components ∧ (∀ x, rest.head? = some x → isIdle x = false) ∧
        r = joinWith ['/'] rest := by
      unfold below? at h
      rcases start_cases p with hfirst | ⟨first, hfirst⟩
      · have hstart : p.start = ([], p.start.2) := Prod.ext hfirst rfl
        rw [hc, hstart] at h
        obtain ⟨rest, hrest, rfl⟩ := Option.map_eq_some_iff.mp h
        obtain ⟨taken, hsegments, htaken, hhead⟩ := dropComponents_eq_some hrest
        exact ⟨taken, rest, hsegments, by rw [hfirst, htaken, hc, List.nil_append], hhead, rfl⟩
      · have hstart : p.start = ([first], p.start.2) := Prod.ext hfirst rfl
        rw [hc, hstart] at h
        obtain ⟨rfl, hmap⟩ := Option.ite_none_right_eq_some.mp h
        obtain ⟨rest, hrest, rfl⟩ := Option.map_eq_some_iff.mp hmap
        obtain ⟨taken, hsegments, htaken, hhead⟩ := dropComponents_eq_some hrest
        exact ⟨taken, rest, hsegments, by rw [hfirst, htaken, hc, List.singleton_append], hhead, rfl⟩
    have hslash (x : Text) (hx : x ∈ rest) : '/' ∉ x := mem_start (hsegments ▸ List.mem_append_right taken hx)
    obtain ⟨hrelative, hcomponents, hsteps⟩ := components_joinWith hslash hhead
    have hp : p.components = base.components ++ steps rest := by
      rw [components_eq, hsegments, steps_append, ← List.append_assoc, htaken]
    exact ⟨by rw [hcomponents, hp], by rw [components_join hrelative hbase, hsteps, hp]⟩

/-- What is joined to a base stands below it, from its first step on. -/
theorem below?_join (hm : m.isAbsolute = false) (hbase : base ≠ []) :
    (base.join m).below? base = some (joinWith ['/'] ((splitOn '/' m).dropWhile isIdle)) := by
  obtain ⟨rest, hstart, hrest⟩ := start_join hm hbase
  have hdrop := dropComponents_append rest (splitOn '/' m)
  unfold below?
  rw [hstart]
  rcases start_cases base with hfirst | ⟨first, hfirst⟩
  · obtain ⟨c, cs, hc⟩ := List.exists_cons_of_ne_nil (components_ne_nil hbase)
    have hsteps : steps rest = c :: cs := by rw [hrest, ← hc, components_eq, hfirst, List.nil_append]
    rw [hsteps] at hdrop
    simp only [hc, hfirst, hdrop, Option.map_some]
  · have hc : base.components = first :: steps rest := by rw [hrest, components_eq, hfirst, List.singleton_append]
    simp only [hc, hfirst, ↓reduceIte, hdrop, Option.map_some]

end Below

end WorkspaceRelease.Path

import Mathlib.Data.List.DropRight
import WorkspaceRelease.Text.Blank
import WorkspaceRelease.Text.Lines

/-!
Trimming takes a text out of the blank around it, and the pieces of a text are what stands between its separators.
-/

namespace WorkspaceRelease.Text

def Blank (t : Text) : Prop := ∀ c ∈ t, isBlank c = true

structure Trimmed (t : Text) : Prop where
  first : ∀ c, t.head? = some c → isBlank c = false
  last : ∀ c, t.getLast? = some c → isBlank c = false

section Trim

variable {t before after : Text}

theorem trimEnd_eq_rdropWhile (t : Text) : t.trimEnd = List.rdropWhile isBlank t := rfl

theorem Blank.append (hbefore : Blank before) (hafter : Blank after) : Blank (before ++ after) :=
  List.forall_mem_append.mpr ⟨hbefore, hafter⟩

theorem trimEnd_append (hafter : Blank after) (t : Text) : trimEnd (t ++ after) = t.trimEnd := by
  have hreverse : ∀ c ∈ after.reverse, isBlank c = true := fun c hc => hafter c (List.mem_reverse.mp hc)
  simp only [trimEnd, List.reverse_append, List.dropWhile_append_of_pos hreverse]

theorem trimStart_append (hbefore : Blank before) (t : Text) : trimStart (before ++ t) = t.trimStart :=
  List.dropWhile_append_of_pos hbefore

theorem trim_append_left (hbefore : Blank before) (t : Text) : trim (before ++ t) = t.trim := by
  rw [trim, trimStart_append hbefore, trim]

theorem trim_append_right (hafter : Blank after) (t : Text) : trim (t ++ after) = t.trim := by
  rw [trim, trim]
  cases h : t.trimStart with
  | nil =>
    have hblank : Blank t := List.dropWhile_eq_nil_iff.mp h
    have hnil : trimStart (t ++ after) = [] := List.dropWhile_eq_nil_iff.mpr (hblank.append hafter)
    rw [hnil]
  | cons c s =>
    have hsplit : trimStart (t ++ after) = t.trimStart ++ after := by
      rw [trimStart, List.dropWhile_append, if_neg]
      · rfl
      · rw [trimStart] at h
        simp [h]
    rw [hsplit, trimEnd_append hafter, h]

theorem trim_append (hbefore : Blank before) (hafter : Blank after) (t : Text) :
    trim (before ++ t ++ after) = t.trim := by
  rw [trim_append_right hafter, trim_append_left hbefore]

theorem trim_of_trimmed (h : Trimmed t) : t.trim = t := by
  cases t with
  | nil => rfl
  | cons c s =>
    have hstart : trimStart (c :: s) = c :: s := List.dropWhile_cons_of_neg (by simp [h.first c rfl])
    rw [trim, hstart, trimEnd_eq_rdropWhile, List.rdropWhile_eq_self_iff]
    intro hne
    simp [h.last _ (List.getLast?_eq_some_getLast hne)]

theorem trim_cons {c : Char} (h : isBlank c = false) (t : Text) : trim (c :: t) = c :: t.trimEnd := by
  have hstart : trimStart (c :: t) = c :: t := List.dropWhile_cons_of_neg (by simp [h])
  rw [trim, hstart, trimEnd, List.reverse_cons, List.dropWhile_append]
  split
  next hempty =>
    have hnil : t.trimEnd = [] := by simpa [trimEnd] using hempty
    simp [h, hnil]
  next => simp [trimEnd]

theorem trimmed_trim (t : Text) : Trimmed t.trim := by
  constructor
  · intro c hc
    obtain ⟨s, hs⟩ : t.trim <+: t.trimStart := List.rdropWhile_prefix isBlank _
    have hhead : (t.dropWhile isBlank).head? = some c := by
      change t.trimStart.head? = some c
      rw [← hs, List.head?_append, hc]
      rfl
    simpa [hhead] using List.head?_dropWhile_not isBlank t
  · intro c hc
    have hne : t.trim ≠ [] := by
      intro hnil
      simp [hnil] at hc
    have hlast := List.rdropWhile_last_not isBlank t.trimStart hne
    obtain rfl : t.trim.getLast hne = c := Option.some.inj ((List.getLast?_eq_some_getLast hne).symm.trans hc)
    exact Bool.not_eq_true _ ▸ hlast

theorem exists_around_trim (t : Text) : ∃ before after, Blank before ∧ Blank after ∧ t = before ++ t.trim ++ after := by
  refine ⟨t.takeWhile isBlank, t.trimStart.rtakeWhile isBlank, ?_, ?_, ?_⟩
  · exact fun c hc => List.mem_takeWhile_imp hc
  · exact fun c hc => List.mem_rtakeWhile_imp hc
  · calc t = t.takeWhile isBlank ++ t.trimStart := List.takeWhile_append_dropWhile.symm
      _ = t.takeWhile isBlank ++ (t.trim ++ t.trimStart.rtakeWhile isBlank) :=
        congrArg _ List.rdropWhile_append_rtakeWhile.symm
      _ = t.takeWhile isBlank ++ t.trim ++ t.trimStart.rtakeWhile isBlank := (List.append_assoc ..).symm

theorem trim_eq_iff {u : Text} :
    t.trim = u ↔ Trimmed u ∧ ∃ before after, Blank before ∧ Blank after ∧ t = before ++ u ++ after := by
  constructor
  · rintro rfl
    exact ⟨trimmed_trim t, exists_around_trim t⟩
  · rintro ⟨hu, before, after, hbefore, hafter, rfl⟩
    rw [trim_append hbefore hafter, trim_of_trimmed hu]

theorem trim_eq_nil_iff : t.trim = [] ↔ Blank t := by
  rw [trim_eq_iff]
  constructor
  · rintro ⟨-, before, after, hbefore, hafter, rfl⟩
    rw [List.append_nil]
    exact hbefore.append hafter
  · intro h
    exact ⟨⟨by simp, by simp⟩, t, [], h, by simp [Blank], by simp⟩

end Trim

section Pieces

variable {sep : Char} {piece : Text}

theorem splitOn_ne_nil (sep : Char) (t : Text) : splitOn sep t ≠ [] := by
  cases t with
  | nil => simp [splitOn]
  | cons c s =>
    by_cases h : c = sep
    · simp [splitOn, h]
    · cases hs : splitOn sep s <;> simp [splitOn, h, hs]

theorem splitOn_of_not_mem (h : sep ∉ piece) : splitOn sep piece = [piece] := by
  induction piece with
  | nil => rfl
  | cons c s ih =>
    obtain ⟨hc, hs⟩ : sep ≠ c ∧ sep ∉ s := by simpa using h
    simp [splitOn, Ne.symm hc, ih hs]

theorem splitOn_append (h : sep ∉ piece) (t : Text) :
    splitOn sep (piece ++ sep :: t) = piece :: splitOn sep t := by
  induction piece with
  | nil => simp [splitOn]
  | cons c s ih =>
    obtain ⟨hc, hs⟩ : sep ≠ c ∧ sep ∉ s := by simpa using h
    simp [splitOn, Ne.symm hc, ih hs]

theorem splitOn_append_cons (sep : Char) (s t : Text) : splitOn sep (s ++ sep :: t) = splitOn sep s ++ splitOn sep t := by
  induction s with
  | nil => simp [splitOn]
  | cons c s ih =>
    by_cases hc : c = sep
    · simp [splitOn, hc, ih]
    · obtain ⟨first, rest, hs⟩ := List.exists_cons_of_ne_nil (splitOn_ne_nil sep s)
      simp [splitOn, hc, ih, hs]

theorem joinWith_append (sep : Text) {ps qs : List Text} (hps : ps ≠ []) (hqs : qs ≠ []) :
    joinWith sep (ps ++ qs) = joinWith sep ps ++ sep ++ joinWith sep qs := by
  induction ps with
  | nil => exact absurd rfl hps
  | cons p ps ih =>
    obtain ⟨q, qs, rfl⟩ := List.exists_cons_of_ne_nil hqs
    cases ps with
    | nil => rfl
    | cons p' ps =>
      have htail : joinWith sep (p' :: ps ++ q :: qs) = joinWith sep (p' :: ps) ++ sep ++ joinWith sep (q :: qs) :=
        ih (by simp)
      simp only [List.cons_append, joinWith, List.append_assoc] at htail ⊢
      rw [htail]

/-- Text behind the last piece stands behind all of them. -/
theorem joinWith_concat (sep : Text) (ps : List Text) (p t : Text) :
    joinWith sep (ps ++ [p ++ t]) = joinWith sep (ps ++ [p]) ++ t := by
  cases ps with
  | nil => rfl
  | cons q ps =>
    rw [joinWith_append sep (by simp) (by simp), joinWith_append sep (by simp) (by simp)]
    simp only [joinWith, List.append_assoc]

theorem splitOn_joinWith {ps : List Text} (hps : ps ≠ []) (h : ∀ p ∈ ps, sep ∉ p) :
    splitOn sep (joinWith [sep] ps) = ps := by
  induction ps with
  | nil => exact absurd rfl hps
  | cons p ps ih =>
    obtain ⟨hp, htail⟩ := List.forall_mem_cons.mp h
    cases ps with
    | nil => exact splitOn_of_not_mem hp
    | cons q ps =>
      have hjoin : joinWith [sep] (p :: q :: ps) = p ++ sep :: joinWith [sep] (q :: ps) := by simp [joinWith]
      rw [hjoin, splitOn_append hp, ih (by simp) htail]

theorem not_mem_of_mem_splitOn {t : Text} (h : piece ∈ splitOn sep t) : sep ∉ piece := by
  induction t generalizing piece with
  | nil =>
    obtain rfl : piece = [] := by simpa [splitOn] using h
    simp
  | cons c s ih =>
    by_cases hc : c = sep
    · rcases List.mem_cons.mp (by simpa [splitOn, hc] using h) with rfl | hmem
      · simp
      · exact ih hmem
    · obtain ⟨first, rest, hs⟩ := List.exists_cons_of_ne_nil (splitOn_ne_nil sep s)
      have hpieces : splitOn sep (c :: s) = (c :: first) :: rest := by simp [splitOn, hc, hs]
      rw [hs] at ih
      rcases List.mem_cons.mp (hpieces ▸ h) with rfl | hmem
      · exact List.not_mem_cons_of_ne_of_not_mem (Ne.symm hc) (ih List.mem_cons_self)
      · exact ih (List.mem_cons_of_mem _ hmem)

theorem cut?_eq_some {a b t : Text} : cut? sep t = some (a, b) ↔ t = a ++ sep :: b ∧ sep ∉ a := by
  induction t generalizing a with
  | nil => simp [cut?]
  | cons c s ih =>
    by_cases hc : c = sep
    · rw [cut?, if_pos hc]
      constructor
      · intro h
        obtain ⟨rfl, rfl⟩ := Prod.mk.inj (Option.some.inj h)
        exact ⟨by rw [hc, List.nil_append], List.not_mem_nil⟩
      · rintro ⟨heq, hmem⟩
        cases a with
        | nil => rw [(List.cons.inj heq).2]
        | cons d a => exact absurd (List.mem_cons.mpr (.inl (hc.symm.trans (List.cons.inj heq).1))) hmem
    · rw [cut?, if_neg hc, Option.map_eq_some_iff]
      constructor
      · rintro ⟨⟨a, b⟩, hcut, heq⟩
        obtain ⟨rfl, rfl⟩ := Prod.mk.inj heq
        obtain ⟨rfl, hmem⟩ := ih.mp hcut
        exact ⟨rfl, List.not_mem_cons_of_ne_of_not_mem (Ne.symm hc) hmem⟩
      · rintro ⟨heq, hmem⟩
        cases a with
        | nil => exact absurd (List.cons.inj heq).1 hc
        | cons d a =>
          obtain ⟨rfl, rfl⟩ := List.cons.inj heq
          exact ⟨(a, b), ih.mpr ⟨rfl, fun h => hmem (List.mem_cons_of_mem _ h)⟩, rfl⟩

theorem trim_dropReturn (t : Text) : (dropReturn t).trim = t.trim := by
  have hreturn : dropReturn t = t ∨ t = dropReturn t ++ ['\r'] := by
    induction t using dropReturn.induct with
    | case1 => exact .inl rfl
    | case2 => exact .inr rfl
    | case3 c s hne ih =>
      rw [dropReturn]
      · rcases ih with h | h
        · exact .inl (by rw [h])
        · exact .inr (congrArg (c :: ·) h)
      · exact hne
  rcases hreturn with h | h
  · rw [h]
  · have hblank : Blank ['\r'] := by simp [Blank, isBlank, blankRanges]
    have htrim := trim_append_right hblank (dropReturn t)
    rw [← h] at htrim
    exact htrim.symm

end Pieces

end WorkspaceRelease.Text

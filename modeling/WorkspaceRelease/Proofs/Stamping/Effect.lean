import WorkspaceRelease.Proofs.Stamping.Files

/-!
What stamping all members does to the files, to the standard output and to the result, whichever member
is the first to fail.
-/

namespace WorkspaceRelease

open FileTree

variable {σ : Type}

section Order

variable {version lead : Text} {files : FileTree} {cwd : Location}

def firstUnstampable (version lead : Text) (files : FileTree) (cwd : Location) (paths : List Path) : Nat :=
  paths.findIdx fun path => !(stampedFile version lead false files cwd path).isOk

theorem firstUnstampable_cons_ok {path : Path} {s : Text} (paths : List Path)
    (h : stampedFile version lead false files cwd path = .ok s) :
    firstUnstampable version lead files cwd (path :: paths) =
      firstUnstampable version lead files cwd paths + 1 := by
  simp [firstUnstampable, List.findIdx_cons, h, Except.isOk, Except.toBool]

theorem firstUnstampable_cons_error {path : Path} {e : ReleaseError} (paths : List Path)
    (h : stampedFile version lead false files cwd path = .error e) :
    firstUnstampable version lead files cwd (path :: paths) = 0 := by
  simp [firstUnstampable, List.findIdx_cons, h, Except.isOk, Except.toBool]

theorem accepted_eq_take (paths : List Path) : accepted version lead files cwd paths =
    paths.take (firstUnstampable version lead files cwd paths) :=
  List.takeWhile_eq_take_findIdx_not

theorem tried_eq_take (paths : List Path) : tried version lead false files cwd paths =
    paths.take (firstUnstampable version lead files cwd paths + 1) := by
  induction paths with
  | nil => rfl
  | cons path paths ih =>
    cases h : stampedFile version lead false files cwd path with
    | error e => simp only [tried, h, firstUnstampable_cons_error paths h, List.take_succ_cons, List.take_zero]
    | ok s => simp only [tried, h, firstUnstampable_cons_ok paths h, List.take_succ_cons, ih]

theorem verdict_eq_ok (paths : List Path) : verdict version lead false files cwd paths = .ok () ↔
    firstUnstampable version lead files cwd paths = paths.length := by
  induction paths with
  | nil => simp [verdict, firstUnstampable]
  | cons path paths ih =>
    cases h : stampedFile version lead false files cwd path with
    | error e => simp [verdict, h, firstUnstampable_cons_error paths h]
    | ok s => simp only [verdict, h, firstUnstampable_cons_ok paths h, List.length_cons, Nat.add_right_cancel_iff, ih]

theorem accepted_of_verdict {paths : List Path} (h : verdict version lead false files cwd paths = .ok ()) :
    accepted version lead files cwd paths = paths := by
  rw [accepted_eq_take, (verdict_eq_ok paths).mp h, List.take_length]

theorem verdict_eq_error {paths : List Path} {path : Path} {e : ReleaseError}
    (hpath : paths[firstUnstampable version lead files cwd paths]? = some path)
    (he : stampedFile version lead false files cwd path = .error e) :
    verdict version lead false files cwd paths = .error e := by
  induction paths with
  | nil => simp at hpath
  | cons p paths ih =>
    cases h : stampedFile version lead false files cwd p with
    | error e' =>
      rw [firstUnstampable_cons_error paths h, List.getElem?_cons_zero] at hpath
      obtain rfl := Option.some.inj hpath
      rw [h] at he
      obtain rfl := Except.error.inj he
      simp only [verdict, h]
    | ok s =>
      rw [firstUnstampable_cons_ok paths h, List.getElem?_cons_succ] at hpath
      simp only [verdict, h]
      exact ih hpath

end Order

/-- The count of files that changed under way is that of the files that differ in the end. -/
theorem stampFiles_count {F : Text → Prop} {R : Text → Text → Prop} {version lead : Text} {cwd : Location}
    {before files : FileTree} {paths : List Path} {n : Nat} (hR : Lasting lead version F R)
    (hunique : ∀ {t s u}, R t s → R t u → s = u) (hrepeats : OnRepeats F before cwd paths)
    (h : Resumes F R cwd before files paths) (hn : (stampFiles version lead false cwd files paths).1 = .ok n) :
    ∃ changed : List Location, changed.Nodup ∧ changed.length = n ∧
      ∀ l, l ∈ changed ↔ (stampFiles version lead false cwd files paths).2.lookup l ≠ files.lookup l := by
  induction paths generalizing files n with
  | nil =>
    obtain rfl : 0 = n := Except.ok.inj hn
    exact ⟨[], List.nodup_nil, rfl, by simp [stampFiles]⟩
  | cons path paths ih =>
    have hrest : OnRepeats F before cwd paths := (List.pairwise_cons.mp hrepeats).2
    cases hfile : stampedFile version lead false before cwd path with
    | error e =>
      have hrun := stampFiles_run hR hrepeats h
      have hverdict := hrun.verdict
      rw [hn] at hverdict
      simp [verdict, hfile, Except.map] at hverdict
    | ok s =>
      obtain ⟨changed, mid, l, t, u, hstamp, hl, ht, hchanged, hopen, hholds, hsettled⟩ :=
        stampFile_resumed hR h hfile
      have hmid := h.next hrepeats hl ht hopen hholds hsettled
      have hrun := stampFiles_run hR hrest hmid
      rw [stampFiles_cons_ok paths hstamp] at hn ⊢
      -- The file keeps the text of its first stamp, so no later one counts it again.
      have hlast : (stampFiles version lead false cwd mid paths).2.lookup l = mid.lookup l := by
        obtain ⟨t₀, u₀, ht₀, hu₀, hR₀⟩ := hsettled
        obtain ⟨t₁, u₁, ht₁, hu₁, hR₁⟩ := hrun.keeps l ⟨t₀, u₀, ht₀, hu₀, hR₀⟩
        obtain rfl : t₀ = t₁ := Except.ok.inj (ht₀.symm.trans ht₁)
        rw [lookup_of_textAt hu₀, lookup_of_textAt hu₁, hunique hR₀ hR₁]
      have hothers (k : Location) (hk : k ≠ l) : mid.lookup k = files.lookup k := by
        rw [hholds.lookup, if_neg hk]
      cases hcount : (stampFiles version lead false cwd mid paths).1 with
      | error e => simp [hcount, Except.map] at hn
      | ok m =>
        obtain ⟨more, hnodup, hlength, hmem⟩ := ih hrest hmid hcount
        have hnot : l ∉ more := fun hin => (hmem l).mp hin hlast
        simp only [hcount, Except.map, Except.ok.injEq] at hn
        cases hc : changed with
        | true =>
          refine ⟨l :: more, List.nodup_cons.mpr ⟨hnot, hnodup⟩, by simpa [hc, hlength] using hn, fun k => ?_⟩
          by_cases hk : k = l
          · have hne : u ≠ t := hchanged.mp hc
            simp [hk, hlast, hholds.lookup, lookup_of_textAt ht, hne]
          · rw [← hothers k hk]
            simp [hk, hmem]
        | false =>
          refine ⟨more, hnodup, by simpa [hc, hlength] using hn, fun k => ?_⟩
          by_cases hk : k = l
          · have heq : u = t := by
              by_cases heq : u = t
              · exact heq
              · simp [hchanged.mpr heq] at hc
            simp [hk, hnot, hlast, hholds.lookup, lookup_of_textAt ht, heq]
          · rw [← hothers k hk]
            exact hmem k

end WorkspaceRelease

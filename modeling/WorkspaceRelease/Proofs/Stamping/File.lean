import WorkspaceRelease.Proofs.Files
import WorkspaceRelease.Proofs.Stamping.Texts

/-!
Stamping one file, and stamping files in turn where none of them is written.
-/

namespace WorkspaceRelease

open FileTree

/-- Not the result of a write that was refused. -/
def Unrefused {α : Type} (result : Except ReleaseError α) : Prop :=
  ∀ path cause, result ≠ .error (.manifestWrite path cause)

section File

variable {version lead : Text} {dryRun : Bool} {cwd : Location} {files after : FileTree} {path : Path}
  {e : ReleaseError}

theorem stampedFile_of_resolve {l : Location} (hl : files.resolve cwd path = .ok l) :
    stampedFile version lead dryRun files cwd path =
      match files.textAt l with
      | .error cause => .error (.manifestRead path cause)
      | .ok t =>
        match stampedText version lead path t with
        | .error e => .error e
        | .ok s =>
          if s = t then .ok s
          else if dryRun then .ok s
          else
            match files.writeRefusal? l with
            | none => .ok s
            | some refusal => .error (.manifestWrite path refusal) := by
  simp only [stampedFile, readText_eq, hl]
  cases files.textAt l with
  | error cause => rfl
  | ok t =>
    simp only
    cases stampedText version lead path t with
    | error e => rfl
    | ok s =>
      simp only [writeText_of_resolve s hl]
      cases files.writeRefusal? l <;> rfl

/-- Stamping a file succeeds where it can be read and stamped, and written unless its text stays. -/
theorem stampedFile_eq_ok {s : Text} : stampedFile version lead dryRun files cwd path = .ok s ↔
    ∃ l t, files.resolve cwd path = .ok l ∧ files.textAt l = .ok t ∧ Stamps lead version t s ∧
      (dryRun = false → s ≠ t → files.writeRefusal? l = none) := by
  cases hl : files.resolve cwd path with
  | error cause => simp [stampedFile, readText_eq, hl]
  | ok l =>
    rw [stampedFile_of_resolve hl]
    cases ht : files.textAt l with
    | error cause => simp [ht]
    | ok t =>
      have hstamps (t : Text) : Stamps lead version t s ↔ stampedText version lead path t = .ok s :=
        Stamps.stampedText.symm
      simp only [hstamps]
      cases hs : stampedText version lead path t with
      | error e => simp [ht, hs]
      | ok u =>
        by_cases hut : u = t
        · grind
        · cases dryRun with
          | true => simp [ht, hs, hut]
          | false =>
            cases hrefusal : files.writeRefusal? l with
            | none => simp [ht, hs, hut, hrefusal]
            | some refusal => grind

theorem stampFile_of_error (h : stampedFile version lead dryRun files cwd path = .error e) :
    stampFile version lead dryRun cwd files path = (.error e, files) := by
  cases hread : files.readText cwd path with
  | error cause => simp_all only [stampedFile, stampFile, Except.error.injEq]
  | ok t =>
    cases hstamp : stampedText version lead path t with
    | error e' => simp_all only [stampedFile, stampFile, Except.error.injEq]
    | ok s =>
      simp only [stampedFile, stampFile, hread, hstamp] at h ⊢
      split at h
      · contradiction
      next hst =>
        split at h
        · contradiction
        next hdry =>
          cases hwrite : files.writeText cwd path s with
          | ok after => simp [hwrite] at h
          | error cause =>
            simp only [hwrite] at h
            obtain rfl := Except.error.inj h
            simp only [hst, hdry, Bool.false_eq_true, ↓reduceIte]

theorem stampFile_dry {s : Text} (h : stampedFile version lead true files cwd path = .ok s) :
    ∃ changed, stampFile version lead true cwd files path = (.ok changed, files) := by
  obtain ⟨l, t, hl, ht, hstamps, -⟩ := stampedFile_eq_ok.mp h
  have hread : files.readText cwd path = .ok t := readText_eq_ok.mpr ⟨l, hl, ht⟩
  have htext : stampedText version lead path t = .ok s := Stamps.stampedText.mpr hstamps
  by_cases hst : s = t
  · exact ⟨false, by simp only [stampFile, hread, htext, hst, ↓reduceIte]⟩
  · exact ⟨true, by simp only [stampFile, hread, htext, hst, ↓reduceIte]⟩

theorem stampFile_real {s : Text} (h : stampedFile version lead false files cwd path = .ok s) :
    ∃ changed after l t, stampFile version lead false cwd files path = (.ok changed, after) ∧
      files.resolve cwd path = .ok l ∧ files.textAt l = .ok t ∧ Stamps lead version t s ∧
      (changed = true ↔ s ≠ t) ∧ (s ≠ t → files.writeRefusal? l = none) ∧ Holds files after l s := by
  obtain ⟨l, t, hl, ht, hstamps, hrefusal⟩ := stampedFile_eq_ok.mp h
  have hread : files.readText cwd path = .ok t := readText_eq_ok.mpr ⟨l, hl, ht⟩
  have htext : stampedText version lead path t = .ok s := Stamps.stampedText.mpr hstamps
  by_cases hst : s = t
  · refine ⟨false, files, l, t, ?_, hl, ht, hstamps, by simp [hst], hrefusal rfl, hst ▸ Holds.self ht⟩
    simp only [stampFile, hread, htext, hst, ↓reduceIte]
  · refine ⟨true, files.insert l (.file (.text s)), l, t, ?_, hl, ht, hstamps, by simp [hst], hrefusal rfl,
      Holds.insert ht s⟩
    simp only [stampFile, hread, htext, hst, ↓reduceIte, Bool.false_eq_true, writeText_of_resolve s hl,
      hrefusal rfl hst]

/-- A dry run foresees a stamp whose write is not refused. -/
theorem stampedFile_dry (h : Unrefused (stampedFile version lead false files cwd path)) :
    stampedFile version lead true files cwd path = stampedFile version lead false files cwd path := by
  simp only [stampedFile, Unrefused] at h ⊢
  cases hread : files.readText cwd path with
  | error cause => rfl
  | ok t =>
    simp only [hread] at h ⊢
    cases hstamp : stampedText version lead path t with
    | error e => rfl
    | ok s =>
      simp only [hstamp, Bool.false_eq_true, ↓reduceIte] at h ⊢
      cases hwrite : files.writeText cwd path s with
      | ok after => rfl
      | error cause =>
        split at h
        next hst => rw [if_pos hst, if_pos hst]
        next => exact absurd (by rw [hwrite]) (h path cause)

/-- Stamping changes no file but the one that its path leads to. -/
theorem resolve_of_stampFile {l : Location}
    (h : (stampFile version lead dryRun cwd files path).2.lookup l ≠ files.lookup l) :
    files.resolve cwd path = .ok l := by
  cases hfile : stampedFile version lead dryRun files cwd path with
  | error e => exact absurd (by rw [stampFile_of_error hfile]) h
  | ok s =>
    cases dryRun with
    | true =>
      obtain ⟨changed, hstamp⟩ := stampFile_dry hfile
      exact absurd (by rw [hstamp]) h
    | false =>
      obtain ⟨changed, after, k, t, hstamp, hk, -, -, -, -, hholds⟩ := stampFile_real hfile
      rw [hstamp, hholds.lookup] at h
      by_cases hl : l = k
      · rw [hl, hk]
      · exact absurd (if_neg hl) h

end File

/-- The result of stamping files in turn, had none of them been written. -/
def verdict (version lead : Text) (dryRun : Bool) (files : FileTree) (cwd : Location) :
    List Path → Except ReleaseError Unit
  | [] => .ok ()
  | path :: paths =>
    match stampedFile version lead dryRun files cwd path with
    | .error e => .error e
    | .ok _ => verdict version lead dryRun files cwd paths

def tried (version lead : Text) (dryRun : Bool) (files : FileTree) (cwd : Location) : List Path → List Path
  | [] => []
  | path :: paths =>
    path ::
      match stampedFile version lead dryRun files cwd path with
      | .error _ => []
      | .ok _ => tried version lead dryRun files cwd paths

theorem verdict_dry {version lead : Text} {files : FileTree} {cwd : Location} {paths : List Path}
    (h : Unrefused (verdict version lead false files cwd paths)) :
    verdict version lead true files cwd paths = verdict version lead false files cwd paths ∧
      tried version lead true files cwd paths = tried version lead false files cwd paths := by
  induction paths with
  | nil => exact ⟨rfl, rfl⟩
  | cons path paths ih =>
    simp only [verdict] at h
    have hfile : stampedFile version lead true files cwd path = stampedFile version lead false files cwd path :=
      stampedFile_dry fun path cause hfile => h path cause (by rw [hfile])
    simp only [verdict, tried, hfile]
    cases hreal : stampedFile version lead false files cwd path with
    | error e => exact ⟨rfl, rfl⟩
    | ok s =>
      simp only [hreal] at h
      obtain ⟨hverdict, htried⟩ := ih h
      exact ⟨hverdict, by rw [htried]⟩

theorem stampFiles_dry (version lead : Text) (cwd : Location) (files : FileTree) (paths : List Path) :
    (stampFiles version lead true cwd files paths).1.map (fun _ => ()) = verdict version lead true files cwd paths ∧
      (stampFiles version lead true cwd files paths).2 = files ∧
      reached version lead true cwd files paths = tried version lead true files cwd paths := by
  induction paths with
  | nil => exact ⟨rfl, rfl, rfl⟩
  | cons path paths ih =>
    obtain ⟨hresult, hfiles, hreached⟩ := ih
    cases hfile : stampedFile version lead true files cwd path with
    | error e =>
      have hstamp := stampFile_of_error hfile
      simp only [stampFiles_cons_error paths hstamp, reached, tried, verdict, hstamp, hfile, Except.map,
        and_self]
    | ok s =>
      obtain ⟨changed, hstamp⟩ := stampFile_dry hfile
      rw [stampFiles_cons_ok paths hstamp]
      refine ⟨?_, hfiles, ?_⟩
      · rw [verdict, hfile, ← hresult]
        cases (stampFiles version lead true cwd files paths).1 <;> rfl
      · simp only [reached, tried, hstamp, hfile, hreached]

end WorkspaceRelease

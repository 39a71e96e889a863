import WorkspaceRelease.Proofs.Manifest.Paths
import WorkspaceRelease.Proofs.SetVersions
import WorkspaceRelease.Proofs.Stamping.File

/-!
What the stamp of one file returns and what it leaves in the file.
-/

namespace WorkspaceRelease

open Toml Stamp FileTree

variable {σ : Type} {path : Path} {version lead t : Text} {d : Document} {w : World σ}

theorem stampDocument?_of_packaged (h : Packaged d.entries) (version lead : Text) :
    stampDocument? version lead d = some ((stampVersions lead version).carry d) := by
  obtain ⟨form, inner, hfind⟩ := h
  have hsome : stampDocument? version lead d = some _ := stampDocument?_eq_some.mpr ⟨form, inner, hfind, rfl⟩
  rw [hsome, ← stampDocument?_eq_carry hsome]

theorem packaged_of_stampDocument? {stamped : Document} (h : stampDocument? version lead d = some stamped) :
    Packaged d.entries := by
  obtain ⟨form, inner, hfind, -⟩ := stampDocument?_eq_some.mp h
  exact ⟨form, inner, hfind⟩

theorem read_of_applyVersion {o : StampOutcome} {after : World σ}
    (hrun : (applyVersion path version lead false).runIn w = (.ok o, after)) :
    ∃ t d, w.files.readText w.cwd path = .ok t ∧ Document.read t = .ok d ∧ Packaged d.entries := by
  obtain ⟨s, hs⟩ : ∃ s, stampedFile version lead false w.files w.cwd path = .ok s := by
    cases hfile : stampedFile version lead false w.files w.cwd path with
    | error e =>
      have herror := applyVersion_eq_error.mpr hfile
      rw [hrun] at herror
      contradiction
    | ok s => exact ⟨s, rfl⟩
  obtain ⟨l, t, hl, ht, ⟨d, stamped, hdoc, hstamp, -⟩, -⟩ := stampedFile_eq_ok.mp hs
  exact ⟨t, d, readText_eq_ok.mpr ⟨l, hl, ht⟩, hdoc, packaged_of_stampDocument? hstamp⟩

theorem familyCount_stampPackage? {es fs : List Entry} (h : stampPackage? version es = some fs) :
    familyCount lead fs = familyCount lead es := by
  have hcovered : coveredTables fs = coveredTables es := by
    rw [← coveredTables_carryPackage (some version) es, carryPackage, h, Option.getD_some]
  rw [familyCount, familyCount, familyOutcomes, familyOutcomes, hcovered]

/-- How a stamp ends that turns the text of a file into another, with the files that it leaves: a write that is refused
leaves them alone. -/
inductive Concludes (files : FileTree) (path : Path) (l : Location) (t s : Text) (count : Nat) :
    Except ReleaseError StampOutcome → FileTree → Prop where
  | kept (hst : s = t) : Concludes files path l t s count (.ok ⟨count, false⟩) files
  | written {after : FileTree} (hst : s ≠ t) (hopen : files.writeRefusal? l = none) (hholds : Holds files after l s) :
      Concludes files path l t s count (.ok ⟨count, true⟩) after
  | refused {cause : FileError} (hst : s ≠ t) (hrefusal : files.writeRefusal? l = some cause) :
      Concludes files path l t s count (.error (.manifestWrite path cause)) files

namespace Concludes

variable {files after : FileTree} {l : Location} {s : Text} {count : Nat} {r : Except ReleaseError StampOutcome}
  {o : StampOutcome}

theorem ok_of_open (h : Concludes files path l t s count r after) (hopen : files.writeRefusal? l = none) :
    ∃ changed, r = .ok ⟨count, changed⟩ := by
  cases h with
  | kept => exact ⟨false, rfl⟩
  | written => exact ⟨true, rfl⟩
  | refused _ hrefusal => simp [hopen] at hrefusal

theorem count_eq (h : Concludes files path l t s count (.ok o) after) : o.dependencies = count := by
  cases h <;> rfl

theorem holds (ht : files.textAt l = .ok t) (h : Concludes files path l t s count (.ok o) after) :
    Holds files after l s := by
  cases h with
  | kept hst => exact hst ▸ Holds.self ht
  | written _ _ hholds => exact hholds

theorem holds_or_refused (ht : files.textAt l = .ok t) (h : Concludes files path l t s count r after) :
    (∃ changed, r = .ok ⟨count, changed⟩ ∧ Holds files after l s) ∨
      ∃ cause, files.writeRefusal? l = some cause ∧ after = files ∧ r = .error (.manifestWrite path cause) := by
  cases h with
  | kept hst => exact .inl ⟨false, rfl, hst ▸ Holds.self ht⟩
  | written _ _ hholds => exact .inl ⟨true, rfl, hholds⟩
  | refused _ hrefusal => exact .inr ⟨_, hrefusal, rfl, rfl⟩

theorem of_refusal {cause : FileError} (hrefusal : files.writeRefusal? l = some cause)
    (h : Concludes files path l t s count r after) : after = files ∧
      r = if s = t then .ok ⟨count, false⟩ else .error (.manifestWrite path cause) := by
  cases h with
  | kept hst => exact ⟨rfl, (if_pos hst).symm⟩
  | written _ hopen => simp [hopen] at hrefusal
  | refused hst hrefusal' =>
    obtain rfl := Option.some.inj (hrefusal'.symm.trans hrefusal)
    exact ⟨rfl, (if_neg hst).symm⟩

theorem rewritten (ht : files.textAt l = .ok t) (h : Concludes files path l t s count (.ok o) after) :
    Rewritten (fun _ _ => True) files after := by
  cases h with
  | kept => exact Rewritten.refl files
  | written _ hopen hholds => exact hholds.rewritten ht hopen

/-- A file that is brought to a text comes to the same end when it has been brought to another one before. -/
theorem again {mid after' : FileTree} {u : Text} {r' : Except ReleaseError StampOutcome}
    (ht : files.textAt l = .ok t) (hfirst : Concludes files path l t u count (.ok o) mid)
    (hdirect : Concludes files path l t s count r after) (hsecond : Concludes mid path l u s count r' after') :
    (∀ k, after'.lookup k = after.lookup k) ∧
      ((∃ changed changed', r = .ok ⟨count, changed⟩ ∧ r' = .ok ⟨count, changed'⟩) ∨
        ∃ cause, files.writeRefusal? l = some cause ∧ o.changed = false ∧
          r = .error (.manifestWrite path cause) ∧ r' = .error (.manifestWrite path cause)) := by
  cases hrefusal : files.writeRefusal? l with
  | none =>
    have hrefusal' : mid.writeRefusal? l = none := ((hfirst.rewritten ht).writeRefusal?_eq l).trans hrefusal
    obtain ⟨changed, rfl⟩ := hdirect.ok_of_open hrefusal
    obtain ⟨changed', rfl⟩ := hsecond.ok_of_open hrefusal'
    have hmid : Holds files mid l u := hfirst.holds ht
    have hafter' : Holds mid after' l s := hsecond.holds (hmid.textAt ht)
    refine ⟨fun k => ?_, .inl ⟨changed, changed', rfl, rfl⟩⟩
    rw [hafter'.lookup, hmid.lookup, (hdirect.holds ht).lookup]
    split <;> rfl
  | some cause =>
    obtain ⟨rfl, ho⟩ := hfirst.of_refusal hrefusal
    have hut : u = t := by
      by_contra hut
      simp [hut] at ho
    rw [if_pos hut] at ho
    obtain rfl := Except.ok.inj ho
    obtain ⟨rfl, hr⟩ := hdirect.of_refusal hrefusal
    obtain ⟨rfl, hr'⟩ := hsecond.of_refusal hrefusal
    rw [hut] at hr'
    refine ⟨fun _ => rfl, ?_⟩
    by_cases hst : s = t
    · rw [if_pos hst] at hr hr'
      exact .inl ⟨false, false, hr, hr'⟩
    · rw [if_neg hst] at hr hr'
      exact .inr ⟨cause, rfl, rfl, hr, hr'⟩

end Concludes

theorem applyVersion_cwd (path : Path) (version lead : Text) (dryRun : Bool) (w : World σ) :
    ((applyVersion path version lead dryRun).runIn w).2.cwd = w.cwd := by
  obtain ⟨events, -, -, -, hworld⟩ := runIn_applyVersion path version lead dryRun w
  rw [hworld]
  rfl

/-- A stamp of a manifest with a package puts the versions into the document, and counts what it would count for any
other version. -/
theorem applyVersion_concludes (hread : w.files.readText w.cwd path = .ok t) (hdoc : Document.read t = .ok d)
    (h : Packaged d.entries) (version lead : Text) :
    ∃ l, w.files.resolve w.cwd path = .ok l ∧ w.files.textAt l = .ok t ∧
      Concludes w.files path l t ((stampVersions lead version).carry d).render (familyCount lead d.entries)
        ((applyVersion path version lead false).runIn w).1
        ((applyVersion path version lead false).runIn w).2.files := by
  let m : Manifest := ⟨path, t, (stampVersions lead version).carry d⟩
  obtain ⟨l, hl, ht⟩ := readText_eq_ok.mp hread
  obtain ⟨es, early, hes, -, -, hrun⟩ :=
    runIn_applyVersion_stamped false hread hdoc (stampDocument?_of_packaged h version lead)
  obtain ⟨events, -, -, hconclude⟩ := runIn_concludeStamp m (familyCount lead es) false (w.record early)
  refine ⟨l, hl, ht, ?_⟩
  rw [hrun, hconclude, familyCount_stampPackage? hes]
  by_cases hsame : m.render = m.loaded
  · rw [if_pos hsame]
    exact .kept hsame
  · have hwrite := writeText_of_resolve m.render hl
    rw [if_neg hsame, if_neg (by decide)]
    cases hrefusal : w.files.writeRefusal? l with
    | none =>
      rw [hrefusal] at hwrite
      simp only [World.record_files, World.record_cwd, m, hwrite]
      exact .written hsame hrefusal (Holds.insert ht _)
    | some cause =>
      rw [hrefusal] at hwrite
      simp only [World.record_files, World.record_cwd, m, hwrite]
      exact .refused hsame hrefusal

theorem concludes_of_applyVersion {o : StampOutcome} {after : World σ} (hread : w.files.readText w.cwd path = .ok t)
    (hdoc : Document.read t = .ok d) (hrun : (applyVersion path version lead false).runIn w = (.ok o, after)) :
    ∃ l, w.files.resolve w.cwd path = .ok l ∧ w.files.textAt l = .ok t ∧
      Concludes w.files path l t ((stampVersions lead version).carry d).render (familyCount lead d.entries)
        (.ok o) after.files := by
  obtain ⟨t', d', hread', hdoc', h⟩ := read_of_applyVersion hrun
  obtain rfl : t = t' := Except.ok.inj (hread.symm.trans hread')
  obtain rfl : d = d' := Except.ok.inj (hdoc.symm.trans hdoc')
  have hconcludes := applyVersion_concludes hread hdoc h version lead
  rwa [hrun] at hconcludes

/-- A manifest at the top of its files, and nothing else. -/
def loneWorld (t : Text) : World Unit := .fresh { entries := [([manifestFile], .file (.text t))] }

theorem resolve_lone (t : Text) :
    (loneWorld t).files.resolve (loneWorld t).cwd manifestFile = .ok [manifestFile] := rfl

theorem readText_lone (t : Text) : (loneWorld t).files.readText (loneWorld t).cwd manifestFile = .ok t := rfl

theorem writeRefusal?_lone (t : Text) : (loneWorld t).files.writeRefusal? [manifestFile] = none := rfl

theorem applyVersion_lone (hdoc : Document.read t = .ok d) (h : Packaged d.entries) (version lead : Text) :
    ∃ changed after, (applyVersion manifestFile version lead false).runIn (loneWorld t) =
        (.ok ⟨familyCount lead d.entries, changed⟩, after) ∧
      Holds (loneWorld t).files after.files [manifestFile] ((stampVersions lead version).carry d).render := by
  obtain ⟨l, hl, ht, hconcludes⟩ := applyVersion_concludes (readText_lone t) hdoc h version lead
  obtain rfl : [manifestFile] = l := Except.ok.inj ((resolve_lone t).symm.trans hl)
  obtain ⟨changed, hresult⟩ := hconcludes.ok_of_open (writeRefusal?_lone t)
  rw [hresult] at hconcludes
  exact ⟨changed, _, Prod.ext hresult rfl, hconcludes.holds ht⟩

end WorkspaceRelease

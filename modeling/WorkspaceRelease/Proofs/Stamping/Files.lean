import Mathlib.Data.List.TakeWhile
import WorkspaceRelease.Proofs.Stamping.File

/-!
Stamping files in turn. What happens to a file depends on its first text alone, although the files
before it may be written in the meantime, and although one file may have several paths.
-/

namespace WorkspaceRelease

open FileTree

/-- A relation between the first text of a file and a later one. Any further stamp keeps it, if the first
text allows more than one. -/
structure Lasting (lead version : Text) (F : Text → Prop) (R : Text → Text → Prop) : Prop where
  start : ∀ {t s}, Stamps lead version t s → R t s
  first : ∀ {t s}, R t s → ∃ u, Stamps lead version t u
  again : ∀ {t s}, F t → R t s → ∃ u, Stamps lead version s u
  next : ∀ {t s u}, F t → R t s → Stamps lead version s u → R t u

theorem lasting_faithful (lead version : Text) :
    Lasting lead version (Faithful lead version) (Relation.TransGen (Stamps lead version)) where
  start := .single
  first h := by
    obtain ⟨u, hu, -⟩ := Relation.TransGen.head'_iff.mp h
    exact ⟨u, hu⟩
  again hF h := hF.again h
  next _ h hu := h.tail hu

theorem lasting_faithfulText (lead version : Text) :
    Lasting lead version (FaithfulText lead version) (Stamps lead version) where
  start := id
  first h := ⟨_, h⟩
  again hF h := ⟨_, hF.again h⟩
  next hF h hu := by
    obtain rfl := (hF.again h).unique hu
    exact h

/-- What holds of the texts of the files that two of the paths lead to. -/
def OnRepeats (F : Text → Prop) (files : FileTree) (cwd : Location) (paths : List Path) : Prop :=
  paths.Pairwise fun p q => ∀ l t, files.resolve cwd p = .ok l → files.resolve cwd q = .ok l →
    files.textAt l = .ok t → F t

theorem onRepeats_of_forall {F : Text → Prop} {files : FileTree} {cwd : Location} {paths : List Path}
    (h : ∀ path ∈ paths, ∀ t, files.readText cwd path = .ok t → F t) : OnRepeats F files cwd paths :=
  List.pairwise_of_forall_mem_list fun p hp _ _ l t hl _ ht => h p hp t (readText_eq_ok.mpr ⟨l, hl, ht⟩)

def Settled (R : Text → Text → Prop) (before files : FileTree) (l : Location) : Prop :=
  ∃ t s, before.textAt l = .ok t ∧ files.textAt l = .ok s ∧ R t s

/-- A tree that came out of earlier stamps. A file that has changed is known to allow a stamp by one of the
paths that are left. -/
structure Resumes (F : Text → Prop) (R : Text → Text → Prop) (cwd : Location) (before files : FileTree)
    (paths : List Path) : Prop where
  rewritten : Rewritten R before files
  repeated : ∀ path ∈ paths, ∀ l t, before.resolve cwd path = .ok l → before.textAt l = .ok t →
    files.lookup l ≠ before.lookup l → F t

theorem Resumes.refl (F : Text → Prop) (R : Text → Text → Prop) (cwd : Location) (files : FileTree)
    (paths : List Path) : Resumes F R cwd files files paths :=
  ⟨Rewritten.refl files, fun _ _ _ _ _ _ hne => absurd rfl hne⟩

section Loop

variable {F : Text → Prop} {R : Text → Text → Prop} {lead version : Text} {cwd : Location}
  {before files : FileTree} {path : Path} {paths : List Path}

theorem Resumes.cases (h : Resumes F R cwd before files (path :: paths)) {l : Location}
    (hl : before.resolve cwd path = .ok l) : files.lookup l = before.lookup l ∨
      before.writeRefusal? l = none ∧
        ∃ t s, before.textAt l = .ok t ∧ files.textAt l = .ok s ∧ R t s ∧ F t := by
  by_cases hsame : files.lookup l = before.lookup l
  · exact .inl hsame
  · obtain ⟨hopen, t, s, ht, hs, hts⟩ := (h.rewritten.lookup l).resolve_left hsame
    exact .inr ⟨hopen, t, s, ht, hs, hts, h.repeated path List.mem_cons_self l t hl ht hsame⟩

theorem stampedFile_resumed (hR : Lasting lead version F R) (h : Resumes F R cwd before files (path :: paths)) :
    (stampedFile version lead false files cwd path).map (fun _ => ()) =
      (stampedFile version lead false before cwd path).map fun _ => () := by
  have hresolve := h.rewritten.resolve_eq cwd path
  cases hl : before.resolve cwd path with
  | error e => simp only [stampedFile, readText_eq, hresolve, hl]
  | ok l =>
    rcases h.cases hl with hsame | ⟨hopen, t, s, ht, hs, hts, hF⟩
    · rw [stampedFile_of_resolve hl, stampedFile_of_resolve (hresolve.trans hl), h.rewritten.textAt_eq hsame,
        h.rewritten.writeRefusal?_eq]
    · have hopen' : files.writeRefusal? l = none := (h.rewritten.writeRefusal?_eq l).trans hopen
      obtain ⟨u, hu⟩ := hR.first hts
      obtain ⟨v, hv⟩ := hR.again hF hts
      rw [stampedFile_eq_ok.mpr ⟨l, t, hl, ht, hu, fun _ _ => hopen⟩,
        stampedFile_eq_ok.mpr ⟨l, s, hresolve.trans hl, hs, hv, fun _ _ => hopen'⟩]
      rfl

/-- One stamp of the run: the file has come to the text that its first one allows, and is changed only where it lets
itself be written. -/
theorem stampFile_resumed (hR : Lasting lead version F R) (h : Resumes F R cwd before files (path :: paths))
    {s : Text} (hfile : stampedFile version lead false before cwd path = .ok s) :
    ∃ changed after l t u, stampFile version lead false cwd files path = (.ok changed, after) ∧
      before.resolve cwd path = .ok l ∧ files.textAt l = .ok t ∧ (changed = true ↔ u ≠ t) ∧
      (u ≠ t → before.writeRefusal? l = none) ∧ Holds files after l u ∧ Settled R before after l := by
  obtain ⟨u, hfile'⟩ : ∃ u, stampedFile version lead false files cwd path = .ok u := by
    have hsame := stampedFile_resumed hR h
    rw [hfile] at hsame
    cases hfiles : stampedFile version lead false files cwd path with
    | error e => simp [hfiles, Except.map] at hsame
    | ok u => exact ⟨u, rfl⟩
  obtain ⟨changed, after, l, t, hstamp, hl, ht, hstamps, hchanged, hopen, hholds⟩ := stampFile_real hfile'
  rw [h.rewritten.resolve_eq] at hl
  rw [h.rewritten.writeRefusal?_eq] at hopen
  refine ⟨changed, after, l, t, u, hstamp, hl, ht, hchanged, hopen, hholds, ?_⟩
  have hu : after.textAt l = .ok u := hholds.textAt ht
  rcases h.cases hl with hsame | ⟨-, t₀, s₀, ht₀, hs₀, hR₀, hF⟩
  · exact ⟨t, u, h.rewritten.textAt_eq hsame ▸ ht, hu, hR.start hstamps⟩
  · obtain rfl : s₀ = t := Except.ok.inj (hs₀.symm.trans ht)
    exact ⟨t₀, u, ht₀, hu, hR.next hF hR₀ hstamps⟩

theorem Resumes.next {after : FileTree} {l : Location} {t u : Text}
    (h : Resumes F R cwd before files (path :: paths)) (hrepeats : OnRepeats F before cwd (path :: paths))
    (hl : before.resolve cwd path = .ok l) (ht : files.textAt l = .ok t)
    (hopen : u ≠ t → before.writeRefusal? l = none) (hholds : Holds files after l u)
    (hsettled : Settled R before after l) : Resumes F R cwd before after paths where
  rewritten := by
    refine ⟨fun k => ?_, hholds.guards.trans h.rewritten.guards⟩
    have hkept (hk : after.lookup k = files.lookup k) : after.lookup k = before.lookup k ∨
        before.writeRefusal? k = none ∧ Settled R before after k := by
      rw [Settled, textAt_congr hk hholds.guards, hk]
      exact h.rewritten.lookup k
    by_cases hk : k = l
    · obtain rfl := hk
      by_cases hut : u = t
      · exact hkept (by rw [hholds.lookup, if_pos rfl, hut, lookup_of_textAt ht])
      · exact .inr ⟨hopen hut, hsettled⟩
    · exact hkept (by rw [hholds.lookup, if_neg hk])
  repeated p hp k t₀ hpk ht₀ hne := by
    by_cases hk : k = l
    · exact (List.pairwise_cons.mp hrepeats).1 p hp k t₀ (hk ▸ hl) hpk ht₀
    · rw [hholds.lookup, if_neg hk] at hne
      exact h.repeated p (List.mem_cons_of_mem _ hp) k t₀ hpk ht₀ hne

end Loop

def accepted (version lead : Text) (files : FileTree) (cwd : Location) (paths : List Path) : List Path :=
  paths.takeWhile fun path => (stampedFile version lead false files cwd path).isOk

theorem stampedFile_of_accepted {version lead : Text} {files : FileTree} {cwd : Location} {path : Path}
    {paths : List Path} (h : path ∈ accepted version lead files cwd paths) :
    ∃ s, stampedFile version lead false files cwd path = .ok s := by
  have hok := List.mem_takeWhile_imp h
  cases hfile : stampedFile version lead false files cwd path with
  | error e => simp [hfile, Except.isOk, Except.toBool] at hok
  | ok s => exact ⟨s, rfl⟩

structure StampRun (R : Text → Text → Prop) (version lead : Text) (cwd : Location) (before files : FileTree)
    (paths : List Path) (result : Except ReleaseError Nat) (after : FileTree) : Prop where
  verdict : result.map (fun _ => ()) = verdict version lead false before cwd paths
  reached : reached version lead false cwd files paths = tried version lead false before cwd paths
  rewritten : Rewritten R before after
  keeps : ∀ l, Settled R before files l → Settled R before after l
  settles : ∀ path ∈ accepted version lead before cwd paths,
    ∃ l, before.resolve cwd path = .ok l ∧ Settled R before after l
  others : ∀ l, (∀ path ∈ accepted version lead before cwd paths, before.resolve cwd path ≠ .ok l) →
    after.lookup l = files.lookup l

theorem stampFiles_run {F : Text → Prop} {R : Text → Text → Prop} {version lead : Text} {cwd : Location}
    {before files : FileTree} {paths : List Path} (hR : Lasting lead version F R)
    (hrepeats : OnRepeats F before cwd paths) (h : Resumes F R cwd before files paths) :
    StampRun R version lead cwd before files paths (stampFiles version lead false cwd files paths).1
      (stampFiles version lead false cwd files paths).2 := by
  induction paths generalizing files with
  | nil => exact ⟨rfl, rfl, h.rewritten, fun _ hl => hl, by simp [accepted], fun _ _ => rfl⟩
  | cons path paths ih =>
    cases hfile : stampedFile version lead false before cwd path with
    | error e =>
      have hnone : accepted version lead before cwd (path :: paths) = [] := by
        simp [accepted, hfile, Except.isOk, Except.toBool]
      have hfile' : stampedFile version lead false files cwd path = .error e := by
        have hsame := stampedFile_resumed hR h
        rw [hfile] at hsame
        cases hfiles : stampedFile version lead false files cwd path with
        | error e' => simpa [hfiles, Except.map] using hsame
        | ok s => simp [hfiles, Except.map] at hsame
      have hstamp := stampFile_of_error hfile'
      rw [stampFiles_cons_error paths hstamp]
      refine ⟨?_, ?_, h.rewritten, fun _ hl => hl, by simp [hnone], fun _ _ => rfl⟩
      · simp only [WorkspaceRelease.verdict, hfile, Except.map]
      · simp only [WorkspaceRelease.reached, tried, hstamp, hfile]
    | ok s =>
      have hsome : accepted version lead before cwd (path :: paths) =
          path :: accepted version lead before cwd paths := by
        simp [accepted, hfile, Except.isOk, Except.toBool]
      obtain ⟨changed, mid, l, t, u, hstamp, hl, ht, -, hopen, hholds, hsettled⟩ := stampFile_resumed hR h hfile
      have hrun := ih (List.pairwise_cons.mp hrepeats).2 (h.next hrepeats hl ht hopen hholds hsettled)
      rw [stampFiles_cons_ok paths hstamp]
      refine ⟨?_, ?_, hrun.rewritten, ?_, ?_, ?_⟩
      · rw [WorkspaceRelease.verdict, hfile, ← hrun.verdict]
        cases (stampFiles version lead false cwd mid paths).1 <;> rfl
      · simp only [WorkspaceRelease.reached, tried, hstamp, hfile, hrun.reached]
      · intro k hk
        by_cases hkl : k = l
        · exact hkl ▸ hrun.keeps l hsettled
        · obtain ⟨t', s', ht', hs', hts'⟩ := hk
          exact hrun.keeps k ⟨t', s', ht', (hholds.textAt_of_ne hkl).trans hs', hts'⟩
      · intro p hp
        rw [hsome] at hp
        rcases List.mem_cons.mp hp with rfl | hp
        · exact ⟨l, hl, hrun.keeps l hsettled⟩
        · exact hrun.settles p hp
      · intro k hk
        rw [hsome] at hk
        have hkl : k ≠ l := by
          rintro rfl
          exact hk path List.mem_cons_self hl
        rw [hrun.others k fun p hp => hk p (List.mem_cons_of_mem _ hp), hholds.lookup, if_neg hkl]

section Plain

/-- A workspace that lists one package by two paths. -/
def plainWorld : World Unit :=
  .fresh { entries :=
    [(["Cargo.toml".toList], .file (.text "[workspace]\nmembers = [\"a\", \"./a\"]\n".toList)),
      (["version.txt".toList], .file (.text "1\n".toList)),
      (["publish-order.txt".toList], .file (.text "a\n".toList)),
      (["a".toList], .directory),
      (["a".toList, "Cargo.toml".toList], .file (.text (plainManifest ['0'])))] }

def plainConfig : Config := { setVersion := true, tag := true, publish := true, family := "ena".toList }

def plainMembers : List Path := ["./a/Cargo.toml".toList, "././a/Cargo.toml".toList]

theorem listMemberManifests_plain :
    ((listMemberManifests plainConfig.workspace).runIn plainWorld).1 = .ok plainMembers := rfl

theorem faithfulText_plainMembers : ∀ m ∈ plainMembers, ∀ t, plainWorld.files.readText plainWorld.cwd m = .ok t →
    FaithfulText plainConfig.family ['1'] t := by
  intro m hm t ht
  have hread : plainWorld.files.readText plainWorld.cwd m = .ok (plainManifest ['0']) := by
    simp only [plainMembers, List.mem_cons, List.not_mem_nil, or_false] at hm
    rcases hm with rfl | rfl <;> rfl
  obtain rfl : plainManifest ['0'] = t := Except.ok.inj (hread.symm.trans ht)
  exact faithfulText_plainManifest

/-- Two packages, the first listed by two paths, and the manifest of the second lets itself be read only. -/
def readOnlyFiles (version : Text) : FileTree where
  entries :=
    [(["Cargo.toml".toList], .file (.text "[workspace]\nmembers = [\"a\", \"./a\", \"b\"]\n".toList)),
      (["version.txt".toList], .file (.text "1\n".toList)),
      (["publish-order.txt".toList], .file (.text "a\n".toList)),
      (["a".toList], .directory),
      (["a".toList, "Cargo.toml".toList], .file (.text (plainManifest version))),
      (["b".toList], .directory),
      (["b".toList, "Cargo.toml".toList], .file (.text (plainManifest ['0'])))]
  guards := [(["b".toList, "Cargo.toml".toList], { write := some .permissionDenied })]

def readOnlyWorld : World Unit := .fresh (readOnlyFiles ['0'])

def readOnlyMembers : List Path := plainMembers ++ ["./b/Cargo.toml".toList]

theorem listMemberManifests_readOnly :
    ((listMemberManifests plainConfig.workspace).runIn readOnlyWorld).1 = .ok readOnlyMembers := rfl

theorem faithfulText_readOnlyMembers : ∀ m ∈ readOnlyMembers, ∀ t,
    readOnlyWorld.files.readText readOnlyWorld.cwd m = .ok t → FaithfulText plainConfig.family ['1'] t := by
  intro m hm t ht
  have hread : readOnlyWorld.files.readText readOnlyWorld.cwd m = .ok (plainManifest ['0']) := by
    simp only [readOnlyMembers, plainMembers, List.mem_append, List.mem_cons, List.not_mem_nil, or_false] at hm
    rcases hm with (rfl | rfl) | rfl <;> rfl
  obtain rfl : plainManifest ['0'] = t := Except.ok.inj (hread.symm.trans ht)
  exact faithfulText_plainManifest

end Plain

end WorkspaceRelease

import WorkspaceRelease.Proofs.Stamping.Effect

/-!
Setting the versions of a workspace: the result, the files and the standard output, on every outcome.
-/

namespace WorkspaceRelease

open FileTree

variable {σ : Type}

section Alone

variable {path : Path} {version lead : Text} {w : World σ}

theorem stampFile_ok {files : FileTree} {cwd : Location} {s : Text} {dryRun : Bool}
    (h : stampedFile version lead dryRun files cwd path = .ok s) :
    ∃ changed after, stampFile version lead dryRun cwd files path = (.ok changed, after) := by
  cases dryRun with
  | true =>
    obtain ⟨changed, hstamp⟩ := stampFile_dry h
    exact ⟨changed, files, hstamp⟩
  | false =>
    obtain ⟨changed, after, _, _, hstamp, -⟩ := stampFile_real h
    exact ⟨changed, after, hstamp⟩

theorem applyVersion_eq_error {dryRun : Bool} {e : ReleaseError} :
    ((applyVersion path version lead dryRun).runIn w).1 = .error e ↔
      stampedFile version lead dryRun w.files w.cwd path = .error e := by
  obtain ⟨_, -, -, hresult, -⟩ := runIn_applyVersion path version lead dryRun w
  cases hfile : stampedFile version lead dryRun w.files w.cwd path with
  | error e' =>
    rw [stampFile_of_error hfile] at hresult
    cases hrun : ((applyVersion path version lead dryRun).runIn w).1 with
    | error e'' =>
      rw [hrun] at hresult
      obtain rfl : e'' = e' := Except.error.inj hresult
      simp only [Except.error.injEq]
    | ok o => simp [hrun, Except.map] at hresult
  | ok s =>
    obtain ⟨changed, after, hstamp⟩ := stampFile_ok hfile
    rw [hstamp] at hresult
    cases hrun : ((applyVersion path version lead dryRun).runIn w).1 with
    | error e' => simp [hrun, Except.map] at hresult
    | ok o => simp

theorem applyVersion_isOk (path : Path) (version lead : Text) (dryRun : Bool) (w : World σ) :
    ((applyVersion path version lead dryRun).runIn w).1.isOk =
      (stampedFile version lead dryRun w.files w.cwd path).isOk := by
  cases hfile : stampedFile version lead dryRun w.files w.cwd path with
  | error e => rw [applyVersion_eq_error.mpr hfile]; rfl
  | ok s =>
    cases hrun : ((applyVersion path version lead dryRun).runIn w).1 with
    | error e => simp [applyVersion_eq_error.mp hrun] at hfile
    | ok o => rfl

theorem applyVersion_files {s : Text} (h : stampedFile version lead false w.files w.cwd path = .ok s) :
    ∃ l t, w.files.resolve w.cwd path = .ok l ∧ w.files.textAt l = .ok t ∧ Stamps lead version t s ∧
      ((applyVersion path version lead false).runIn w).2.files.lookup l = some (.file (.text s)) := by
  obtain ⟨_, -, -, -, hworld⟩ := runIn_applyVersion path version lead false w
  obtain ⟨changed, after, l, t, hstamp, hl, ht, hts, -, -, hholds⟩ := stampFile_real h
  refine ⟨l, t, hl, ht, hts, ?_⟩
  rw [hworld, World.record_files, hstamp, hholds.lookup, if_pos rfl]

end Alone

def firstFailing (c : Config) (version : Text) (w : World σ) (manifests : List Path) : Nat :=
  manifests.findIdx fun m => !((applyVersion m version c.family false).runIn w).1.isOk

theorem firstFailing_eq (c : Config) (version : Text) (w : World σ) (manifests : List Path) :
    firstFailing c version w manifests = firstUnstampable version c.family w.files w.cwd manifests := by
  simp only [firstFailing, firstUnstampable, applyVersion_isOk]

/-- Where several members are one file, what the stamp prints for it reads back as it was printed. -/
def FaithfulRepeats (c : Config) (version : Text) (w : World σ) (manifests : List Path) : Prop :=
  OnRepeats (FaithfulText c.family version) w.files w.cwd manifests

/-- What setting a version does to a workspace with the given members. The members before the first that
fails are left as a stamp of each alone would leave it. -/
structure StampEffect (c : Config) (version : Text) (w : World σ) (manifests : List Path)
    (result : Except ReleaseError Unit) (after : World σ) (events : List Event) : Prop where
  succeeds : result = .ok () ↔ firstFailing c version w manifests = manifests.length
  fails : ∀ m e, manifests[firstFailing c version w manifests]? = some m →
    ((applyVersion m version c.family false).runIn w).1 = .error e → result = .error e
  stamped : ∀ m ∈ manifests.take (firstFailing c version w manifests), ∃ l t s,
    w.files.resolve w.cwd m = .ok l ∧ w.files.lookup l = some (.file (.text t)) ∧
    Stamps c.family version t s ∧ after.files.lookup l = some (.file (.text s)) ∧
    ((applyVersion m version c.family false).runIn w).2.files.lookup l = some (.file (.text s))
  others : ∀ l, (∀ m ∈ manifests.take (firstFailing c version w manifests),
    w.files.resolve w.cwd m ≠ .ok l) → after.files.lookup l = w.files.lookup l
  lines : ∃ summary, printedIn events =
      (manifests.take (firstFailing c version w manifests + 1)).map (settingLine w.painted c version) ++ summary ∧
    (firstFailing c version w manifests ≠ manifests.length → summary = []) ∧
    (firstFailing c version w manifests = manifests.length →
      ∃ changed : List Location, changed.Nodup ∧
        (∀ l, l ∈ changed ↔ after.files.lookup l ≠ w.files.lookup l) ∧
        summary = [summaryLine w.painted version changed.length manifests.length])
  unordered : result = .ok () → ∀ again, (∀ m, m ∈ again ↔ m ∈ manifests) → FaithfulRepeats c version w again →
    ((stampMembers c version again).runIn w).1.isOk = true ∧
    ∀ l, ((stampMembers c version again).runIn w).2.files.lookup l = after.files.lookup l

theorem verdict_eq_ok_iff {version lead : Text} {files : FileTree} {cwd : Location} {paths : List Path} :
    verdict version lead false files cwd paths = .ok () ↔
      ∀ path ∈ paths, ∃ s, stampedFile version lead false files cwd path = .ok s := by
  induction paths with
  | nil => simp [verdict]
  | cons path paths ih => cases h : stampedFile version lead false files cwd path <;> simp [verdict, h, ih]

section Members

variable {c : Config} {version : Text} {w : World σ} {manifests : List Path}

theorem stampFiles_of_faithfulRepeats (hcodec : FaithfulRepeats c version w manifests) :
    StampRun (Stamps c.family version) version c.family w.cwd w.files w.files manifests
      (stampFiles version c.family false w.cwd w.files manifests).1
      (stampFiles version c.family false w.cwd w.files manifests).2 :=
  stampFiles_run (lasting_faithfulText _ _) hcodec (Resumes.refl _ _ w.cwd w.files manifests)

theorem stampFiles_congr {again : List Path} (hcodec : FaithfulRepeats c version w manifests)
    (hcodec' : FaithfulRepeats c version w again)
    (hok : verdict version c.family false w.files w.cwd manifests = .ok ()) (hagain : ∀ m, m ∈ again ↔ m ∈ manifests) :
    (stampFiles version c.family false w.cwd w.files again).1.isOk = true ∧
      ∀ l, (stampFiles version c.family false w.cwd w.files again).2.lookup l =
        (stampFiles version c.family false w.cwd w.files manifests).2.lookup l := by
  have hrun := stampFiles_of_faithfulRepeats hcodec
  have hrun' := stampFiles_of_faithfulRepeats hcodec'
  have hok' : verdict version c.family false w.files w.cwd again = .ok () :=
    verdict_eq_ok_iff.mpr fun m hm => verdict_eq_ok_iff.mp hok m ((hagain m).mp hm)
  refine ⟨?_, fun l => ?_⟩
  · have hverdict := hrun'.verdict
    rw [hok'] at hverdict
    cases hresult : (stampFiles version c.family false w.cwd w.files again).1 with
    | error e => simp [hresult, Except.map] at hverdict
    | ok n => rfl
  · by_cases hl : ∃ m ∈ manifests, w.files.resolve w.cwd m = .ok l
    · obtain ⟨m, hm, hml⟩ := hl
      obtain ⟨k, hk, t, s, ht, hs, hts⟩ := hrun.settles m (by rwa [accepted_of_verdict hok])
      obtain ⟨k', hk', t', s', ht', hs', hts'⟩ :=
        hrun'.settles m (by rw [accepted_of_verdict hok']; exact (hagain m).mpr hm)
      obtain rfl : k = l := Except.ok.inj (hk.symm.trans hml)
      obtain rfl : k' = k := Except.ok.inj (hk'.symm.trans hml)
      obtain rfl : t = t' := Except.ok.inj (ht.symm.trans ht')
      rw [lookup_of_textAt hs, lookup_of_textAt hs', hts.unique hts']
    · have hne : ∀ m ∈ manifests, w.files.resolve w.cwd m ≠ .ok l := fun m hm hml => hl ⟨m, hm, hml⟩
      rw [hrun.others l (by rwa [accepted_of_verdict hok]),
        hrun'.others l (by rw [accepted_of_verdict hok']; exact fun m hm => hne m ((hagain m).mp hm))]

theorem summaryLines_of_failed (hcodec : FaithfulRepeats c version w manifests) (painted : Bool)
    (hne : firstUnstampable version c.family w.files w.cwd manifests ≠ manifests.length) :
    summaryLines painted c version manifests.length
      (stampFiles version c.family false w.cwd w.files manifests).1 = [] := by
  have hverdict := (stampFiles_of_faithfulRepeats hcodec).verdict
  cases hcount : (stampFiles version c.family false w.cwd w.files manifests).1 with
  | error e => rfl
  | ok n =>
    rw [hcount] at hverdict
    exact absurd ((verdict_eq_ok manifests).mp hverdict.symm) hne

theorem summaryLines_of_stamped (hreal : c.dryRun = false) (hcodec : FaithfulRepeats c version w manifests)
    (painted : Bool) (heq : firstUnstampable version c.family w.files w.cwd manifests = manifests.length) :
    ∃ changed : List Location, changed.Nodup ∧
      (∀ l, l ∈ changed ↔
        (stampFiles version c.family false w.cwd w.files manifests).2.lookup l ≠ w.files.lookup l) ∧
      summaryLines painted c version manifests.length
        (stampFiles version c.family false w.cwd w.files manifests).1 =
          [summaryLine painted version changed.length manifests.length] := by
  have hverdict := (stampFiles_of_faithfulRepeats hcodec).verdict
  rw [(verdict_eq_ok manifests).mpr heq] at hverdict
  cases hcount : (stampFiles version c.family false w.cwd w.files manifests).1 with
  | error e => simp [hcount, Except.map] at hverdict
  | ok n =>
    obtain ⟨changed, hnodup, hlength, hmem⟩ := stampFiles_count (lasting_faithfulText c.family version)
      Stamps.unique hcodec (Resumes.refl _ _ w.cwd w.files manifests) hcount
    refine ⟨changed, hnodup, hmem, ?_⟩
    rw [hlength, summaryLines, hreal]
    rfl

end Members

theorem setVersions_effect {c : Config} {version : Text} {w : World σ} {manifests : List Path}
    (hreal : c.dryRun = false) (hmembers : ((listMemberManifests c.workspace).runIn w).1 = .ok manifests)
    (hcodec : FaithfulRepeats c version w manifests) :
    ∃ events, ((setVersions c version).runIn w).2.trace = w.trace ++ events ∧
      StampEffect c version w manifests ((setVersions c version).runIn w).1
        ((setVersions c version).runIn w).2 events := by
  obtain ⟨logs, -, hlist⟩ := runIn_listMemberManifests c.workspace w
  have hof : membersOf w.files w.cwd c.workspace = .ok manifests := by simpa only [hlist] using hmembers
  obtain ⟨events, hevents, hrun⟩ := runIn_setVersions c version w
  have hstamp := stampFiles_of_faithfulRepeats hcodec
  have hworkspace : stampWorkspace c version w.cwd w.files =
      (verdict version c.family false w.files w.cwd manifests,
        (stampFiles version c.family false w.cwd w.files manifests).2) := by
    simp only [stampWorkspace, hof, hreal, hstamp.verdict]
  rw [hworkspace] at hrun
  rw [hrun]
  refine ⟨events, rfl, ?_, ?_, ?_, ?_, ?_, ?_⟩
  · rw [firstFailing_eq]
    exact verdict_eq_ok manifests
  · intro m e hm he
    rw [firstFailing_eq] at hm
    exact verdict_eq_error hm (applyVersion_eq_error.mp he)
  · intro m hm
    rw [firstFailing_eq, ← accepted_eq_take] at hm
    obtain ⟨l, hl, t, s, ht, hs, hts⟩ := hstamp.settles m hm
    obtain ⟨s', hfile⟩ := stampedFile_of_accepted hm
    obtain ⟨l', t', hl', ht', hts', halone⟩ := applyVersion_files hfile
    obtain rfl : l = l' := Except.ok.inj (hl.symm.trans hl')
    obtain rfl : t = t' := Except.ok.inj (ht.symm.trans ht')
    obtain rfl := hts.unique hts'
    exact ⟨l, t, s, hl, lookup_of_textAt ht, hts, lookup_of_textAt hs, halone⟩
  · intro l hl
    rw [firstFailing_eq, ← accepted_eq_take] at hl
    exact hstamp.others l hl
  · rw [firstFailing_eq]
    have hlines := hevents.printed
    simp only [workspaceLines, hof, hreal, hstamp.reached, tried_eq_take] at hlines
    exact ⟨_, hlines, summaryLines_of_failed hcodec w.painted, summaryLines_of_stamped hreal hcodec w.painted⟩
  · intro hok again hagain hcodec'
    obtain ⟨_, -, hmembers'⟩ := runIn_stampMembers c version again w
    rw [hmembers', hreal]
    exact stampFiles_congr hcodec hcodec' hok hagain

/-- The first package is listed twice, and the manifest of the second cannot be written. -/
theorem setVersions_effect_readOnly :
    ∃ events, ((setVersions plainConfig ['1']).runIn readOnlyWorld).2.trace = readOnlyWorld.trace ++ events ∧
      StampEffect plainConfig ['1'] readOnlyWorld readOnlyMembers
        (.error (.manifestWrite "./b/Cargo.toml".toList .permissionDenied))
        ((setVersions plainConfig ['1']).runIn readOnlyWorld).2 events ∧
      readOnlyWorld.files.lookup ["a".toList, "Cargo.toml".toList] ≠
        ((setVersions plainConfig ['1']).runIn readOnlyWorld).2.files.lookup ["a".toList, "Cargo.toml".toList] := by
  have hcodec : FaithfulRepeats plainConfig ['1'] readOnlyWorld readOnlyMembers :=
    onRepeats_of_forall faithfulText_readOnlyMembers
  obtain ⟨events, htrace, heffect⟩ := setVersions_effect rfl listMemberManifests_readOnly hcodec
  have hfirst : firstFailing plainConfig ['1'] readOnlyWorld readOnlyMembers = 2 := by decide +kernel
  have hrefused : ((applyVersion "./b/Cargo.toml".toList ['1'] plainConfig.family false).runIn readOnlyWorld).1 =
      .error (.manifestWrite "./b/Cargo.toml".toList .permissionDenied) := by decide +kernel
  have hresult := heffect.fails "./b/Cargo.toml".toList _ (by rw [hfirst]; rfl) hrefused
  rw [hresult] at heffect
  exact ⟨events, htrace, heffect, by decide +kernel⟩

/-- The header that the stamp adds takes over the spelling of the key behind it when the text is read again. -/
def respelledManifest : Text := "[package . metadata]\nx = 1\n".toList

def respelledWorld : World Unit :=
  .fresh { entries :=
    [(["Cargo.toml".toList], .file (.text "[workspace]\nmembers = [\"a\", \"a\"]\n".toList)),
      (["a".toList], .directory),
      (["a".toList, "Cargo.toml".toList], .file (.text respelledManifest))] }

def respelledMember : Path := "./a/Cargo.toml".toList

theorem setVersions_effect_respelled :
    ¬∀ (c : Config) (version : Text) (w : World Unit) (manifests : List Path), c.dryRun = false →
      ((listMemberManifests c.workspace).runIn w).1 = .ok manifests →
      ∃ events, ((setVersions c version).runIn w).2.trace = w.trace ++ events ∧
        StampEffect c version w manifests ((setVersions c version).runIn w).1
          ((setVersions c version).runIn w).2 events := by
  intro h
  have hmembers : ((listMemberManifests ({} : Config).workspace).runIn respelledWorld).1 =
      .ok [respelledMember, respelledMember] := rfl
  obtain ⟨events, -, heffect⟩ := h {} ['1'] respelledWorld _ rfl hmembers
  have hall : firstFailing {} ['1'] respelledWorld [respelledMember, respelledMember] = 2 := by
    decide +kernel
  obtain ⟨l, t, s, hl, -, -, hafter, halone⟩ := heffect.stamped respelledMember (by rw [hall]; exact List.mem_cons_self)
  have hresolve : respelledWorld.files.resolve respelledWorld.cwd respelledMember =
      .ok ["a".toList, "Cargo.toml".toList] := rfl
  obtain rfl : ["a".toList, "Cargo.toml".toList] = l := Except.ok.inj (hresolve.symm.trans hl)
  have hne : ((setVersions {} ['1']).runIn respelledWorld).2.files.lookup
        ["a".toList, "Cargo.toml".toList] ≠
      ((applyVersion respelledMember ['1'] ({} : Config).family false).runIn respelledWorld).2.files.lookup
        ["a".toList, "Cargo.toml".toList] := by
    decide +kernel
  exact hne (hafter.trans halone.symm)

end WorkspaceRelease

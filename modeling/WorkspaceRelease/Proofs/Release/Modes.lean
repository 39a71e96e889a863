import WorkspaceRelease.Proofs.Release.Stages
import WorkspaceRelease.Proofs.Stamping.Files

/-!
The stamp of a release in a dry run and in a real run.
-/

namespace WorkspaceRelease

variable {σ : Type}

/-- What a release prints for the members of its workspace reads back to the same keys and values. -/
def FaithfulMembers (c : Config) (w : World σ) : Prop :=
  ∀ version manifests, ((loadVersion c.workspace).runIn w).1 = .ok version →
    ((listMemberManifests c.workspace).runIn w).1 = .ok manifests →
    ∀ m ∈ manifests, ∀ t, w.files.readText w.cwd m = .ok t → Faithful c.family version t

theorem FaithfulMembers.faithful {c : Config} {w : World σ} (h : FaithfulMembers c w) {version : Text}
    {manifests : List Path} (hversion : versionOf w.files w.cwd c.workspace = .ok version)
    (hmembers : membersOf w.files w.cwd c.workspace = .ok manifests) :
    ∀ m ∈ manifests, ∀ t, w.files.readText w.cwd m = .ok t → Faithful c.family version t := by
  obtain ⟨_, -, hload⟩ := runIn_loadVersion c.workspace w
  obtain ⟨_, -, hlist⟩ := runIn_listMemberManifests c.workspace w
  exact h version manifests (by rw [hload]; exact hversion) (by rw [hlist]; exact hmembers)

theorem faithfulMembers_plain : FaithfulMembers plainConfig plainWorld := by
  intro version manifests hversion hmembers m hm t ht
  have hload : ((loadVersion plainConfig.workspace).runIn plainWorld).1 = .ok ['1'] := rfl
  obtain rfl : ['1'] = version := Except.ok.inj (hload.symm.trans hversion)
  obtain rfl : plainMembers = manifests := Except.ok.inj (listMemberManifests_plain.symm.trans hmembers)
  exact (faithfulText_plainMembers m hm t ht).faithful

def Config.inMode (c : Config) (dryRun : Bool) : Config := { c with dryRun }

section Stamp

variable (painted : Bool) (c : Config) (version : Text) (cwd : Location) (files : FileTree)

/-- What stamping the members comes to where no write is refused. -/
def memberVerdict : Except ReleaseError Unit :=
  if c.setVersion then
    match membersOf files cwd c.workspace with
    | .error e => .error e
    | .ok manifests => verdict version c.family true files cwd manifests
  else .ok ()

def settingLines : List Text :=
  if c.setVersion then
    match membersOf files cwd c.workspace with
    | .error _ => []
    | .ok manifests => (tried version c.family true files cwd manifests).map (settingLine painted c version)
  else []

theorem stampOutcome_dry : stampOutcome (c.inMode true) version cwd files =
    (memberVerdict c version cwd files, files) := by
  unfold stampOutcome memberVerdict stampWorkspace Config.inMode
  cases c.setVersion with
  | false => rfl
  | true =>
    cases membersOf files cwd c.workspace with
    | error e => rfl
    | ok manifests =>
      obtain ⟨hresult, hfiles, -⟩ := stampFiles_dry version c.family cwd files manifests
      simp only [↓reduceIte, hresult, hfiles]

theorem stampLines_dry : stampLines painted (c.inMode true) version cwd files =
    settingLines painted c version cwd files := by
  unfold stampLines settingLines workspaceLines Config.inMode
  cases c.setVersion with
  | false => rfl
  | true =>
    cases membersOf files cwd c.workspace with
    | error e => rfl
    | ok manifests =>
      obtain ⟨-, -, hreached⟩ := stampFiles_dry version c.family cwd files manifests
      simp only [↓reduceIte, hreached]
      cases (stampFiles version c.family true cwd files manifests).1 <;>
        simp only [summaryLines, ↓reduceIte, List.append_nil] <;> rfl

variable {c version cwd files}

theorem stampFiles_of_faithful {manifests : List Path}
    (h : ∀ m ∈ manifests, ∀ t, files.readText cwd m = .ok t → Faithful c.family version t) :
    StampRun (Relation.TransGen (Stamps c.family version)) version c.family cwd files files manifests
      (stampFiles version c.family false cwd files manifests).1
      (stampFiles version c.family false cwd files manifests).2 :=
  stampFiles_run (lasting_faithful _ _) (onRepeats_of_forall h) (Resumes.refl _ _ cwd files manifests)

theorem stampOutcome_real (h : ∀ manifests, membersOf files cwd c.workspace = .ok manifests →
      ∀ m ∈ manifests, ∀ t, files.readText cwd m = .ok t → Faithful c.family version t)
    (hwrites : Unrefused (stampOutcome (c.inMode false) version cwd files).1) :
    (stampOutcome (c.inMode false) version cwd files).1 = memberVerdict c version cwd files := by
  unfold stampOutcome memberVerdict stampWorkspace Config.inMode at *
  cases hset : c.setVersion with
  | false => rfl
  | true =>
    cases hmembers : membersOf files cwd c.workspace with
    | error e => rfl
    | ok manifests =>
      have hrun := stampFiles_of_faithful (h manifests hmembers)
      simp only [hset, hmembers, ↓reduceIte, hrun.verdict] at hwrites ⊢
      exact (verdict_dry hwrites).1.symm

theorem stampLines_real (painted : Bool) (h : ∀ manifests, membersOf files cwd c.workspace = .ok manifests →
      ∀ m ∈ manifests, ∀ t, files.readText cwd m = .ok t → Faithful c.family version t)
    (hwrites : Unrefused (stampOutcome (c.inMode false) version cwd files).1) :
    ∃ summary, stampLines painted (c.inMode false) version cwd files =
        settingLines painted c version cwd files ++ summary ∧
      (c.setVersion = true → memberVerdict c version cwd files = .ok () →
        ∃ changed total, summary = [summaryLine painted version changed total]) ∧
      (c.setVersion = false ∨ memberVerdict c version cwd files ≠ .ok () → summary = []) := by
  unfold stampOutcome stampWorkspace Config.inMode at hwrites
  unfold stampLines settingLines memberVerdict workspaceLines Config.inMode
  cases hset : c.setVersion with
  | false => exact ⟨[], rfl, by simp, fun _ => rfl⟩
  | true =>
    cases hmembers : membersOf files cwd c.workspace with
    | error e => exact ⟨[], rfl, by simp, fun _ => rfl⟩
    | ok manifests =>
      have hrun := stampFiles_of_faithful (h manifests hmembers)
      simp only [hset, hmembers, ↓reduceIte, hrun.verdict] at hwrites
      obtain ⟨hsame, htried⟩ := verdict_dry hwrites
      have hverdict := hrun.verdict.trans hsame.symm
      simp only [↓reduceIte, hrun.reached, htried]
      refine ⟨_, rfl, ?_, ?_⟩
      · rintro - hok
        cases hresult : (stampFiles version c.family false cwd files manifests).1 with
        | error e => simp [hresult, hok, Except.map] at hverdict
        | ok n => exact ⟨n, manifests.length, rfl⟩
      · rintro (hfalse | hne)
        · simp at hfalse
        · cases hresult : (stampFiles version c.family false cwd files manifests).1 with
          | error e => rfl
          | ok n =>
            rw [hresult] at hverdict
            exact absurd hverdict.symm hne

end Stamp

end WorkspaceRelease

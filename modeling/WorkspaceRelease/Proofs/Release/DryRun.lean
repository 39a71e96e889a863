import WorkspaceRelease.Proofs.Release.Commands
import WorkspaceRelease.Proofs.Release.Modes

/-!
A dry run against the real run from the same world.
-/

namespace WorkspaceRelease

variable {σ : Type}

def AllStamped (c : Config) (w : World σ) : Prop :=
  c.setVersion = true ∧ ∃ version order, dataOf w.files w.cwd c.workspace = .ok (version, order) ∧
    ((setVersions (c.inMode false) version).runIn w).1 = .ok ()

def isSetting (painted : Bool) (line : Text) : Bool :=
  (paint painted .greenBold "setting version".toList).isPrefixOf line

def dryLine (painted : Bool) : Text := paint painted .yellow "running in dry mode".toList ++ ['\n']

/-- The real run ends at no write that was refused. -/
def WritesSucceed (c : Config) (executor : Executor σ) (w : World σ) : Prop :=
  ∀ path cause, ((release (c.inMode false) executor).runIn w).1 ≠ .error (.manifestWrite path cause)

/-- What a dry run says about the real run. -/
structure Preview (c : Config) (w : World σ) (dry real : Except ReleaseError Unit × World σ)
    (dryEvents realEvents : List Event) : Prop where
  result : dry.1 = real.1
  untouched : dry.2 = w.record dryEvents
  noWrite : ∀ e ∈ dryEvents, e.isWrite = false
  noCall : commandsIn dryEvents = []
  lines : ∃ settings summary dispatch,
    printedIn dryEvents = dryLine w.painted :: (settings ++ dispatch) ∧
    printedIn realEvents = settings ++ summary ++ dispatch ∧
    (∀ line ∈ settings, isSetting w.painted line = true) ∧
    (∀ line ∈ dispatch, isSetting w.painted line = false) ∧
    (AllStamped c w → ∃ version changed total, summary = [summaryLine w.painted version changed total]) ∧
    (¬AllStamped c w → summary = [])
  commands : (printedIn dryEvents).tail.filter (isRunning w.painted) =
    (commandsIn realEvents).map (runningLine w.painted)

theorem isSetting_settingLine (painted : Bool) (c : Config) (version : Text) (m : Path) :
    isSetting painted (settingLine painted c version m) = true := by
  rw [isSetting, List.isPrefixOf_iff_prefix, settingLine]
  exact ⟨" v".toList ++ version ++ " for ".toList ++ m.relative c.workspace ++ ['\n'], by
    simp only [List.append_assoc]⟩

theorem isSetting_of_mem_settingLines {painted : Bool} {c : Config} {version : Text} {cwd : Location}
    {files : FileTree} {line : Text} (h : line ∈ settingLines painted c version cwd files) :
    isSetting painted line = true := by
  unfold settingLines at h
  split at h
  · split at h
    · simp at h
    · obtain ⟨m, -, rfl⟩ := List.mem_map.mp h
      exact isSetting_settingLine painted c version m
  · simp at h

theorem isSetting_of_mem_commandLines {painted : Bool} {c : Config} {version : Text} {order : List Text}
    {line : Text} (h : line ∈ commandLines painted c version order) : isSetting painted line = false := by
  have hrunning : ∀ i, isSetting painted (runningLine painted i) = false := by
    intro i
    cases painted <;> rfl
  have htagging : ∀ rest, isSetting painted (headingLine painted "tagging".toList rest) = false := by
    intro rest
    cases painted <;> rfl
  have hpublishing : ∀ rest, isSetting painted (headingLine painted "publishing".toList rest) = false := by
    intro rest
    cases painted <;> rfl
  rcases List.mem_append.mp h with h | h
  · cases ht : c.tag with
    | false => simp [ht] at h
    | true =>
      simp only [ht, ↓reduceIte, tagLines, List.mem_cons, List.not_mem_nil, or_false] at h
      rcases h with rfl | rfl | rfl
      · exact htagging _
      · exact hrunning _
      · exact hrunning _
  · cases hp : c.publish with
    | false => simp [hp] at h
    | true =>
      simp only [hp, ↓reduceIte, publishLines, List.mem_flatMap, List.mem_cons, List.not_mem_nil,
        or_false] at h
      obtain ⟨package, -, rfl | rfl⟩ := h
      · exact hpublishing _
      · exact hrunning _

theorem filter_settingLines (painted : Bool) (c : Config) (version : Text) (cwd : Location) (files : FileTree) :
    (settingLines painted c version cwd files).filter (isRunning painted) = [] := by
  rw [List.filter_eq_nil_iff]
  intro line hline
  unfold settingLines at hline
  split at hline
  · split at hline
    · simp at hline
    · obtain ⟨m, -, rfl⟩ := List.mem_map.mp hline
      simp only [isRunning_settingLine, Bool.false_eq_true, not_false_eq_true]
  · simp at hline

theorem allStamped_iff {c : Config} {w : World σ} {version : Text} {order : List Text}
    (hcodec : FaithfulMembers c w) (hdata : dataOf w.files w.cwd c.workspace = .ok (version, order))
    (hwrites : Unrefused (stampOutcome (c.inMode false) version w.cwd w.files).1) :
    AllStamped c w ↔ c.setVersion = true ∧ memberVerdict c version w.cwd w.files = .ok () := by
  have hreal := stampOutcome_real (fun _ => hcodec.faithful (dataOf_eq_ok.mp hdata).1) hwrites
  have hset : c.setVersion = true → ((setVersions (c.inMode false) version).runIn w).1 =
      memberVerdict c version w.cwd w.files := by
    intro hset
    obtain ⟨_, -, hrun⟩ := runIn_setVersions (c.inMode false) version w
    have hset' : (c.inMode false).setVersion = true := hset
    rw [hrun, ← hreal, stampOutcome, if_pos hset']
  constructor
  · rintro ⟨hc, version', order', hdata', hok⟩
    obtain ⟨rfl, rfl⟩ := Prod.mk.inj (Except.ok.inj (hdata.symm.trans hdata'))
    exact ⟨hc, (hset hc).symm.trans hok⟩
  · rintro ⟨hc, hok⟩
    exact ⟨hc, version, order, hdata, (hset hc).trans hok⟩

def Foretells (c : Config) (w : World σ) (dry real : Except ReleaseError Unit × List Text × List Invocation) :
    Prop :=
  ∃ result settings summary dispatch plan,
    dry = (result, dryLine w.painted :: (settings ++ dispatch), []) ∧
    real = (result, settings ++ summary ++ dispatch, plan) ∧
    (∀ line ∈ settings, isSetting w.painted line = true) ∧
    (∀ line ∈ dispatch, isSetting w.painted line = false) ∧
    (AllStamped c w → ∃ version changed total, summary = [summaryLine w.painted version changed total]) ∧
    (¬AllStamped c w → summary = []) ∧
    (settings ++ dispatch).filter (isRunning w.painted) = plan.map (runningLine w.painted)

section Reports

variable {c : Config} {w : World σ} {version : Text} {order : List Text} {e : ReleaseError}

theorem announcement_dry (painted : Bool) (c : Config) : announcement painted (c.inMode true) = [dryLine painted] := rfl

theorem announcement_real (painted : Bool) (c : Config) : announcement painted (c.inMode false) = [] := rfl

theorem foretells_unloaded (h : dataOf w.files w.cwd c.workspace = .error e) :
    Foretells c w (releaseReport (c.inMode true) w) (releaseReport (c.inMode false) w) := by
  have hreport : ∀ dryRun, releaseReport (c.inMode dryRun) w =
      (.error e, announcement w.painted (c.inMode dryRun), []) := by
    intro dryRun
    simp only [releaseReport, Config.inMode, h]
  rw [hreport, hreport]
  refine ⟨.error e, [], [], [], [], rfl, rfl, by simp, by simp, ?_, fun _ => rfl, rfl⟩
  rintro ⟨-, version, order, hok, -⟩
  simp [h] at hok

theorem foretells_idle (h : dataOf w.files w.cwd c.workspace = .ok (version, order))
    (hact : c.hasAction = false) :
    Foretells c w (releaseReport (c.inMode true) w) (releaseReport (c.inMode false) w) := by
  have hset : c.setVersion = false := by simp_all [Config.hasAction]
  have hreport : ∀ dryRun, releaseReport (c.inMode dryRun) w =
      (.ok (), announcement w.painted (c.inMode dryRun) ++ [idleLine], []) := by
    intro dryRun
    have hidle : (c.inMode dryRun).hasAction = false := hact
    have hdata : dataOf w.files w.cwd (c.inMode dryRun).workspace = .ok (version, order) := h
    simp only [releaseReport, hdata, hidle, Bool.false_eq_true, ↓reduceIte]
  rw [hreport, hreport]
  refine ⟨.ok (), [], [], [idleLine], [], rfl, rfl, by simp, ?_, ?_, fun _ => rfl, ?_⟩
  · intro line hline
    obtain rfl := List.mem_singleton.mp hline
    cases w.painted <;> rfl
  · rintro ⟨hc, -⟩
    simp [hset] at hc
  · cases w.painted <;> rfl

theorem unrefused_stampOutcome (h : dataOf w.files w.cwd c.workspace = .ok (version, order))
    (hact : c.hasAction = true) (hwrites : Unrefused (releaseReport (c.inMode false) w).1) :
    Unrefused (stampOutcome (c.inMode false) version w.cwd w.files).1 := by
  intro path cause hout
  apply hwrites path cause
  have hactive : (c.inMode false).hasAction = true := hact
  have hdata : dataOf w.files w.cwd (c.inMode false).workspace = .ok (version, order) := h
  simp only [releaseReport, hdata, hactive, ↓reduceIte, hout]

theorem foretells_failed (hcodec : FaithfulMembers c w)
    (hwrites : Unrefused (stampOutcome (c.inMode false) version w.cwd w.files).1)
    (h : dataOf w.files w.cwd c.workspace = .ok (version, order)) (hact : c.hasAction = true)
    (hverdict : memberVerdict c version w.cwd w.files = .error e) :
    Foretells c w (releaseReport (c.inMode true) w) (releaseReport (c.inMode false) w) := by
  have hfaithful : ∀ manifests, membersOf w.files w.cwd c.workspace = .ok manifests →
      ∀ m ∈ manifests, ∀ t, w.files.readText w.cwd m = .ok t → Faithful c.family version t :=
    fun _ => hcodec.faithful (dataOf_eq_ok.mp h).1
  obtain ⟨summary, hlines, -, hnone⟩ := stampLines_real w.painted hfaithful hwrites
  have hdry := stampOutcome_dry c version w.cwd w.files
  have hreal := stampOutcome_real hfaithful hwrites
  have hlinesDry := stampLines_dry w.painted c version w.cwd w.files
  rw [hverdict] at hdry hreal hnone
  have hreport : ∀ dryRun, (stampOutcome (c.inMode dryRun) version w.cwd w.files).1 = .error e →
      releaseReport (c.inMode dryRun) w = (.error e, announcement w.painted (c.inMode dryRun) ++
        stampLines w.painted (c.inMode dryRun) version w.cwd w.files, []) := by
    intro dryRun hout
    have hactive : (c.inMode dryRun).hasAction = true := hact
    have hdata : dataOf w.files w.cwd (c.inMode dryRun).workspace = .ok (version, order) := h
    simp only [releaseReport, hdata, hactive, ↓reduceIte, hout]
  rw [hreport true (by rw [hdry]), hreport false hreal, hlines, hlinesDry]
  refine ⟨.error e, settingLines w.painted c version w.cwd w.files, summary, [], [], ?_, ?_,
    fun _ => isSetting_of_mem_settingLines, by simp, ?_, fun _ => hnone (.inr (by simp)), ?_⟩
  · rw [announcement_dry, List.append_nil, List.singleton_append]
  · rw [announcement_real, List.nil_append, List.append_nil]
  · intro hall
    have hok := ((allStamped_iff hcodec h hwrites).mp hall).2
    simp [hverdict] at hok
  · rw [List.append_nil, filter_settingLines]
    rfl

theorem foretells_stamped (hcodec : FaithfulMembers c w)
    (hwrites : Unrefused (stampOutcome (c.inMode false) version w.cwd w.files).1)
    (h : dataOf w.files w.cwd c.workspace = .ok (version, order)) (hact : c.hasAction = true)
    (hverdict : memberVerdict c version w.cwd w.files = .ok ()) :
    Foretells c w (releaseReport (c.inMode true) w) (releaseReport (c.inMode false) w) := by
  have hfaithful : ∀ manifests, membersOf w.files w.cwd c.workspace = .ok manifests →
      ∀ m ∈ manifests, ∀ t, w.files.readText w.cwd m = .ok t → Faithful c.family version t :=
    fun _ => hcodec.faithful (dataOf_eq_ok.mp h).1
  obtain ⟨summary, hlines, hsome, hnone⟩ := stampLines_real w.painted hfaithful hwrites
  have hdry := stampOutcome_dry c version w.cwd w.files
  have hreal := stampOutcome_real hfaithful hwrites
  have hlinesDry := stampLines_dry w.painted c version w.cwd w.files
  rw [hverdict] at hdry hreal
  have hreport : ∀ dryRun, (stampOutcome (c.inMode dryRun) version w.cwd w.files).1 = .ok () →
      releaseReport (c.inMode dryRun) w = (.ok (), announcement w.painted (c.inMode dryRun) ++
        stampLines w.painted (c.inMode dryRun) version w.cwd w.files ++ commandLines w.painted c version order,
        if dryRun then [] else c.commands version order) := by
    intro dryRun hout
    have hactive : (c.inMode dryRun).hasAction = true := hact
    have hdata : dataOf w.files w.cwd (c.inMode dryRun).workspace = .ok (version, order) := h
    simp only [releaseReport, hdata, hactive, ↓reduceIte, hout]
    rfl
  rw [hreport true (by rw [hdry]), hreport false hreal, hlines, hlinesDry]
  refine ⟨.ok (), settingLines w.painted c version w.cwd w.files, summary,
    commandLines w.painted c version order, c.commands version order, ?_, ?_,
    fun _ => isSetting_of_mem_settingLines, fun _ => isSetting_of_mem_commandLines, ?_, ?_, ?_⟩
  · rw [announcement_dry, List.singleton_append, List.cons_append, if_pos rfl]
  · rw [announcement_real, List.nil_append, if_neg Bool.false_ne_true]
  · intro hall
    obtain ⟨changed, total, hsummary⟩ := hsome ((allStamped_iff hcodec h hwrites).mp hall).1 hverdict
    exact ⟨version, changed, total, hsummary⟩
  · intro hall
    refine hnone (.inl ?_)
    simpa [allStamped_iff hcodec h hwrites, hverdict] using hall
  · rw [List.filter_append, filter_settingLines, filter_commandLines]
    rfl

theorem releaseReport_foretells (hcodec : FaithfulMembers c w)
    (hwrites : Unrefused (releaseReport (c.inMode false) w).1) :
    Foretells c w (releaseReport (c.inMode true) w) (releaseReport (c.inMode false) w) := by
  cases hdata : dataOf w.files w.cwd c.workspace with
  | error e => exact foretells_unloaded hdata
  | ok data =>
    obtain ⟨version, order⟩ := data
    cases hact : c.hasAction with
    | false => exact foretells_idle hdata hact
    | true =>
      have hstamp := unrefused_stampOutcome hdata hact hwrites
      cases hverdict : memberVerdict c version w.cwd w.files with
      | error e => exact foretells_failed hcodec hstamp hdata hact hverdict
      | ok u => exact foretells_stamped hcodec hstamp hdata hact hverdict

end Reports

theorem dryRun_preview {c : Config} {executor : Executor σ} {w : World σ} (haccepts : executor.Accepts)
    (hwrites : WritesSucceed c executor w) (hcodec : FaithfulMembers c w) :
    ∃ dryEvents realEvents,
      ((release (c.inMode true) executor).runIn w).2.trace = w.trace ++ dryEvents ∧
      ((release (c.inMode false) executor).runIn w).2.trace = w.trace ++ realEvents ∧
      Preview c w ((release (c.inMode true) executor).runIn w)
        ((release (c.inMode false) executor).runIn w) dryEvents realEvents := by
  have hd : (c.inMode true).dryRun = true := rfl
  obtain ⟨dryEvents, htrace, hreport, huntouched⟩ := release_report executor (.inl hd) w
  obtain ⟨realEvents, htrace', hreport', -⟩ :=
    release_report (c := c.inMode false) executor (.inr haccepts) w
  have hrefused : Unrefused (releaseReport (c.inMode false) w).1 := by
    rw [← hreport']
    exact hwrites
  obtain ⟨result, settings, summary, dispatch, plan, hdry, hreal, hsettings, hdispatch, hall, hnone, hplan⟩ :=
    releaseReport_foretells hcodec hrefused
  obtain ⟨hresult, hrest⟩ := Prod.mk.inj (hreport.trans hdry)
  obtain ⟨hprinted, hcalls⟩ := Prod.mk.inj hrest
  obtain ⟨hresult', hrest'⟩ := Prod.mk.inj (hreport'.trans hreal)
  obtain ⟨hprinted', hcalls'⟩ := Prod.mk.inj hrest'
  obtain ⟨hwrite, hworld⟩ := huntouched hd
  refine ⟨dryEvents, realEvents, htrace, htrace', ?_⟩
  exact {
    result := hresult.trans hresult'.symm
    untouched := hworld
    noWrite := hwrite
    noCall := hcalls
    lines := ⟨settings, summary, dispatch, hprinted, hprinted', hsettings, hdispatch, hall, hnone⟩
    commands := by rw [hprinted, List.tail_cons, hplan, hcalls'] }

theorem writesSucceed_plain : WritesSucceed plainConfig (Executor.scripted []) plainWorld := by
  have hresult : ((release (plainConfig.inMode false) (Executor.scripted [])).runIn plainWorld).1.isOk = true := by
    decide +kernel
  intro path cause h
  rw [h] at hresult
  contradiction

theorem dryRun_preview_plain :
    ∃ dryEvents realEvents,
      ((release (plainConfig.inMode true) (Executor.scripted [])).runIn plainWorld).2.trace =
        plainWorld.trace ++ dryEvents ∧
      ((release (plainConfig.inMode false) (Executor.scripted [])).runIn plainWorld).2.trace =
        plainWorld.trace ++ realEvents ∧
      Preview plainConfig plainWorld
        ((release (plainConfig.inMode true) (Executor.scripted [])).runIn plainWorld)
        ((release (plainConfig.inMode false) (Executor.scripted [])).runIn plainWorld)
        dryEvents realEvents :=
  dryRun_preview Executor.accepts_scripted_nil writesSucceed_plain faithfulMembers_plain

end WorkspaceRelease

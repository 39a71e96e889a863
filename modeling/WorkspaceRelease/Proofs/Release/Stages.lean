import WorkspaceRelease.Proofs.DataFiles
import WorkspaceRelease.Proofs.Dispatcher
import WorkspaceRelease.Proofs.Stamping

/-!
A release in its stages: the announcement of a dry run, the two data files, the stamp, and the
commands.
-/

namespace WorkspaceRelease

variable {σ : Type}

def Config.commands (c : Config) (version : Text) (order : List Text) : List Invocation :=
  (if c.tag then [.commit version, .tag version] else []) ++ if c.publish then order.map .publish else []

def Config.dispatcher (c : Config) (executor : Executor σ) : Dispatcher σ :=
  ⟨executor, c.dryRun, c.keepGoing⟩

def announce (c : Config) : ReleaseM σ Unit := do
  if c.dryRun then
    ReleaseM.printLine (← ReleaseM.paint .yellow "running in dry mode".toList)

def stampStage (c : Config) (version : Text) : ReleaseM σ Unit := do
  if c.setVersion then
    setVersions c version

def tagStage (c : Config) (executor : Executor σ) (version : Text) : ReleaseM σ Unit := do
  if c.tag then
    (c.dispatcher executor).tag version

def publishStage (c : Config) (executor : Executor σ) (order : List Text) : ReleaseM σ Unit := do
  if c.publish then
    (c.dispatcher executor).publish order

def commandStage (c : Config) (executor : Executor σ) (version : Text) (order : List Text) :
    ReleaseM σ Unit := do
  tagStage c executor version
  publishStage c executor order

def actionStage (c : Config) (executor : Executor σ) (version : Text) (order : List Text) :
    ReleaseM σ Unit := do
  if !c.hasAction then
    ReleaseM.printLine "nothing to do :(".toList
  else
    stampStage c version
    commandStage c executor version order

theorem release_eq (c : Config) (executor : Executor σ) :
    release c executor = (do
      announce c
      let version ← loadVersion c.workspace
      let order ← loadPublishOrder c.workspace
      actionStage c executor version order) := by
  obtain ⟨dryRun, setVersion, tag, publish, keepGoing, family, workspace⟩ := c
  cases dryRun <;> cases setVersion <;> cases tag <;> cases publish <;> rfl

def announcement (painted : Bool) (c : Config) : List Text :=
  if c.dryRun then [paint painted .yellow "running in dry mode".toList ++ ['\n']] else []

theorem runIn_announce (c : Config) (w : World σ) :
    ∃ events, Reports true (announcement w.painted c) events ∧
      (announce c).runIn w = (.ok (), w.record events) := by
  cases h : c.dryRun with
  | true =>
    refine ⟨_, by simpa only [announcement, h, ↓reduceIte] using Reports.line _, ?_⟩
    simp only [announce, h, ↓reduceIte, ReleaseM.runIn_bind, ReleaseM.runIn_paint,
      ReleaseM.runIn_printLine]
  | false => exact ⟨[], by simpa [announcement, h] using Reports.nil, by simp [announce, h, World.record]⟩

def dataOf (files : FileTree) (cwd : Location) (workspace : Path) :
    Except ReleaseError (Text × List Text) := do
  let version ← versionOf files cwd workspace
  let order ← publishOrderOf files cwd workspace
  .ok (version, order)

theorem dataOf_eq_ok {files : FileTree} {cwd : Location} {workspace : Path} {version : Text}
    {order : List Text} : dataOf files cwd workspace = .ok (version, order) ↔
      versionOf files cwd workspace = .ok version ∧ publishOrderOf files cwd workspace = .ok order := by
  unfold dataOf
  cases versionOf files cwd workspace with
  | error e => simp [bind, Except.bind]
  | ok v => cases publishOrderOf files cwd workspace <;> simp [bind, Except.bind]

theorem runIn_release_error (c : Config) (executor : Executor σ) {w : World σ} {e : ReleaseError}
    (h : dataOf w.files w.cwd c.workspace = .error e) :
    ∃ events, Reports true (announcement w.painted c) events ∧
      (release c executor).runIn w = (.error e, w.record events) := by
  obtain ⟨start, hstart, hannounce⟩ := runIn_announce c w
  obtain ⟨logs, hlogs, hload⟩ := runIn_loadVersion c.workspace (w.record start)
  have hversion : Reports true [] (.read (c.workspace.join versionFile) :: logs) :=
    (Reports.read _).append (Reports.quiet hlogs)
  simp only [World.record_files, World.record_cwd] at hload
  rw [release_eq]
  simp only [ReleaseM.runIn_bind, hannounce, hload]
  unfold dataOf at h
  cases hv : versionOf w.files w.cwd c.workspace with
  | error e' =>
    simp only [hv, bind, Except.bind, Except.error.injEq] at h
    subst h
    refine ⟨_, by simpa using hstart.append hversion, ?_⟩
    simp [World.record]
  | ok version =>
    simp only [hv, bind, Except.bind] at h
    obtain ⟨logs', hlogs', hload'⟩ := runIn_loadPublishOrder c.workspace
      ((w.record start).record (.read (c.workspace.join versionFile) :: logs))
    have horder : Reports true [] (.read (c.workspace.join publishOrderFile) :: logs') :=
      (Reports.read _).append (Reports.quiet hlogs')
    simp only [World.record_files, World.record_cwd] at hload'
    simp only [hload']
    cases ho : publishOrderOf w.files w.cwd c.workspace with
    | error e' =>
      simp only [ho, Except.error.injEq] at h
      subst h
      refine ⟨_, by simpa using (hstart.append hversion).append horder, ?_⟩
      simp [World.record]
    | ok order => simp [ho] at h

/-- The events before anything is done: nothing but both data files is read. -/
structure Opening (c : Config) (painted : Bool) (es : List Event) : Prop where
  reports : Reports true (announcement painted c) es
  readsVersion : .read (c.workspace.join versionFile) ∈ es
  readsOrder : .read (c.workspace.join publishOrderFile) ∈ es

theorem runIn_release_ok (c : Config) (executor : Executor σ) {w : World σ} {version : Text}
    {order : List Text} (h : dataOf w.files w.cwd c.workspace = .ok (version, order)) :
    ∃ opening, Opening c w.painted opening ∧
      (release c executor).runIn w = (actionStage c executor version order).runIn (w.record opening) := by
  obtain ⟨hv, ho⟩ := dataOf_eq_ok.mp h
  obtain ⟨start, hstart, hannounce⟩ := runIn_announce c w
  obtain ⟨logs, hlogs, hload⟩ := runIn_loadVersion c.workspace (w.record start)
  obtain ⟨logs', hlogs', hload'⟩ := runIn_loadPublishOrder c.workspace
    ((w.record start).record (.read (c.workspace.join versionFile) :: logs))
  have hversion : Reports true [] (.read (c.workspace.join versionFile) :: logs) :=
    (Reports.read _).append (Reports.quiet hlogs)
  have horder : Reports true [] (.read (c.workspace.join publishOrderFile) :: logs') :=
    (Reports.read _).append (Reports.quiet hlogs')
  simp only [World.record_files, World.record_cwd, hv, ho] at hload hload'
  refine ⟨start ++ (.read (c.workspace.join versionFile) :: logs) ++
    (.read (c.workspace.join publishOrderFile) :: logs'), ⟨?_, by simp, by simp⟩, ?_⟩
  · simpa using (hstart.append hversion).append horder
  · rw [release_eq]
    simp only [ReleaseM.runIn_bind, hannounce, hload, hload']
    simp only [World.record_record, List.append_assoc]

def stampOutcome (c : Config) (version : Text) (cwd : Location) (files : FileTree) :
    Except ReleaseError Unit × FileTree :=
  if c.setVersion then stampWorkspace c version cwd files else (.ok (), files)

def stampLines (painted : Bool) (c : Config) (version : Text) (cwd : Location) (files : FileTree) :
    List Text :=
  if c.setVersion then workspaceLines painted c version cwd files else []

theorem runIn_stampStage (c : Config) (version : Text) (w : World σ) :
    ∃ events, Reports c.dryRun (stampLines w.painted c version w.cwd w.files) events ∧
      (stampStage c version).runIn w =
        ((stampOutcome c version w.cwd w.files).1,
          { w with files := (stampOutcome c version w.cwd w.files).2 }.record events) := by
  cases h : c.setVersion with
  | true => simpa only [stampStage, stampOutcome, stampLines, h, ↓reduceIte] using runIn_setVersions c version w
  | false =>
    refine ⟨[], by simpa [stampLines, h] using Reports.nil, ?_⟩
    simp [stampStage, stampOutcome, h, World.record]

def idleLine : Text := "nothing to do :(".toList ++ ['\n']

section Loaded

variable {c : Config} (executor : Executor σ) {w : World σ} {version : Text} {order : List Text}

theorem runIn_release_idle (hdata : dataOf w.files w.cwd c.workspace = .ok (version, order))
    (hact : c.hasAction = false) :
    ∃ opening, Opening c w.painted opening ∧
      (release c executor).runIn w = (.ok (), w.record (opening ++ [.output (.stdout idleLine)])) := by
  obtain ⟨opening, hopening, hrun⟩ := runIn_release_ok c executor hdata
  refine ⟨opening, hopening, ?_⟩
  rw [hrun, ← World.record_record]
  simp only [actionStage, hact, Bool.not_false, ↓reduceIte, ReleaseM.runIn_printLine]
  rfl

theorem runIn_release_active (hdata : dataOf w.files w.cwd c.workspace = .ok (version, order))
    (hact : c.hasAction = true) :
    ∃ opening stamping, Opening c w.painted opening ∧
      Reports c.dryRun (stampLines w.painted c version w.cwd w.files) stamping ∧
      (release c executor).runIn w =
        match (stampOutcome c version w.cwd w.files).1 with
        | .error e =>
          (.error e, { w with files := (stampOutcome c version w.cwd w.files).2 }.record (opening ++ stamping))
        | .ok _ =>
          (commandStage c executor version order).runIn
            ({ w with files := (stampOutcome c version w.cwd w.files).2 }.record (opening ++ stamping)) := by
  obtain ⟨opening, hopening, hrun⟩ := runIn_release_ok c executor hdata
  obtain ⟨stamping, hstamping, hstage⟩ := runIn_stampStage c version (w.record opening)
  simp only [World.record_files, World.record_cwd, World.record_painted] at hstamping hstage
  refine ⟨opening, stamping, hopening, hstamping, ?_⟩
  rw [hrun]
  simp only [actionStage, hact, Bool.not_true, Bool.false_eq_true, ↓reduceIte, ReleaseM.runIn_bind, hstage]
  cases (stampOutcome c version w.cwd w.files).1 with
  | error e => simp [World.record]
  | ok u => simp [World.record]

end Loaded

theorem issues_commandStage (c : Config) (executor : Executor σ) (version : Text) (order : List Text) :
    (commandStage c executor version order).Issues
      ((c.dispatcher executor).executed (c.commands version order)) := by
  rw [Config.commands, Dispatcher.executed_append]
  refine ReleaseM.Issues.bind ?_ fun _ => ?_
  · unfold tagStage
    cases c.tag with
    | true => exact Dispatcher.issues_tag _ version
    | false => simpa [Dispatcher.executed] using ReleaseM.issues_pure (σ := σ) ()
  · unfold publishStage
    cases c.publish with
    | true => exact Dispatcher.issues_publish _ order
    | false => simpa [Dispatcher.executed] using ReleaseM.issues_pure (σ := σ) ()

end WorkspaceRelease

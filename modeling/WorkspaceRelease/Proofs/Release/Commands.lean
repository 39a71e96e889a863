import WorkspaceRelease.Executor
import WorkspaceRelease.Proofs.Release.Stages
import WorkspaceRelease.Proofs.Stamping.Files

/-!
What the commands of a release print where each of them is accepted.
-/

namespace WorkspaceRelease

variable {σ : Type}

/-- An executor for which every command ends well and prints nothing. -/
structure Executor.Accepts (executor : Executor σ) : Prop where
  ok : ∀ i s files, (executor i s files).result = .ok ()
  silent : ∀ i s files, ∀ o ∈ (executor i s files).output, ∀ t, o ≠ .stdout t

theorem Executor.accepts_scripted_nil : (Executor.scripted []).Accepts :=
  ⟨fun _ _ _ => rfl, fun _ _ _ => by simp [Executor.scripted]⟩

def runningLine (painted : Bool) (i : Invocation) : Text :=
  paint painted .cyan "running".toList ++ ' ' :: i.display ++ ['\n']

def isRunning (painted : Bool) (line : Text) : Bool :=
  (paint painted .cyan "running".toList ++ [' ']).isPrefixOf line

def headingLine (painted : Bool) (word rest : Text) : Text :=
  paint painted .greenBold word ++ ' ' :: rest ++ ['\n']

def tagLines (painted : Bool) (version : Text) : List Text :=
  [headingLine painted "tagging".toList (tagName version), runningLine painted (.commit version),
    runningLine painted (.tag version)]

def publishLines (painted : Bool) (order : List Text) : List Text :=
  order.flatMap fun package =>
    [headingLine painted "publishing".toList package, runningLine painted (.publish package)]

def commandLines (painted : Bool) (c : Config) (version : Text) (order : List Text) : List Text :=
  (if c.tag then tagLines painted version else []) ++ if c.publish then publishLines painted order else []

theorem isRunning_runningLine (painted : Bool) (i : Invocation) : isRunning painted (runningLine painted i) = true := by
  rw [isRunning, List.isPrefixOf_iff_prefix, runningLine]
  exact ⟨i.display ++ ['\n'], by simp⟩

theorem isRunning_tagging (painted : Bool) (rest : Text) :
    isRunning painted (headingLine painted "tagging".toList rest) = false := by
  cases painted <;> rfl

theorem isRunning_publishing (painted : Bool) (rest : Text) :
    isRunning painted (headingLine painted "publishing".toList rest) = false := by
  cases painted <;> rfl

theorem isRunning_settingLine (painted : Bool) (c : Config) (version : Text) (manifest : Path) :
    isRunning painted (settingLine painted c version manifest) = false := by
  cases painted <;> rfl

theorem filter_publishLines (painted : Bool) (order : List Text) :
    (publishLines painted order).filter (isRunning painted) =
      (order.map Invocation.publish).map (runningLine painted) := by
  induction order with
  | nil => rfl
  | cons package packages ih =>
    have hcons : publishLines painted (package :: packages) =
        headingLine painted "publishing".toList package :: runningLine painted (.publish package) ::
          publishLines painted packages := rfl
    rw [hcons, List.filter_cons_of_neg (by simp only [isRunning_publishing, Bool.false_eq_true, not_false_eq_true]),
      List.filter_cons_of_pos (isRunning_runningLine painted _), ih]
    rfl

theorem filter_commandLines (painted : Bool) (c : Config) (version : Text) (order : List Text) :
    (commandLines painted c version order).filter (isRunning painted) =
      (c.commands version order).map (runningLine painted) := by
  have htag : (tagLines painted version).filter (isRunning painted) =
      [runningLine painted (.commit version), runningLine painted (.tag version)] := by
    rw [tagLines, List.filter_cons_of_neg (by simp only [isRunning_tagging, Bool.false_eq_true, not_false_eq_true]),
      List.filter_cons_of_pos (isRunning_runningLine painted _),
      List.filter_cons_of_pos (isRunning_runningLine painted _), List.filter_nil]
  rw [commandLines, Config.commands, List.filter_append, List.map_append]
  cases c.tag <;> cases c.publish <;> simp only [Bool.false_eq_true, ↓reduceIte, htag, filter_publishLines] <;> rfl

namespace ReleaseM

/-- An action ends well, writes nothing, prints some lines and executes some commands. Without commands it
leaves all but the trace as it was. -/
def Performs (m : ReleaseM σ Unit) (lines : Bool → List Text) (plan : List Invocation) : Prop :=
  ∀ w : World σ, ∃ after events, m.runIn w = (.ok (), after) ∧ after.trace = w.trace ++ events ∧
    after.painted = w.painted ∧ (∀ e ∈ events, e.isWrite = false) ∧ printedIn events = lines w.painted ∧
    commandsIn events = plan ∧ (plan = [] → after = w.record events)

variable {m n : ReleaseM σ Unit} {lines more : Bool → List Text} {plan rest : List Invocation}

theorem performs_pure : (pure () : ReleaseM σ Unit).Performs (fun _ => []) [] :=
  fun w => ⟨w, [], rfl, by simp, rfl, by simp, rfl, rfl, fun _ => by simp [World.record]⟩

theorem Performs.seq (hm : m.Performs lines plan) (hn : n.Performs more rest) :
    (m >>= fun _ => n).Performs (fun painted => lines painted ++ more painted) (plan ++ rest) := by
  intro w
  obtain ⟨mid, events, hrun, htrace, hpainted, hwrite, hprinted, hcalls, hsame⟩ := hm w
  obtain ⟨after, events', hrun', htrace', hpainted', hwrite', hprinted', hcalls', hsame'⟩ := hn mid
  refine ⟨after, events ++ events', ?_, ?_, hpainted'.trans hpainted,
    List.forall_mem_append.mpr ⟨hwrite, hwrite'⟩, ?_, ?_, fun hnil => ?_⟩
  · rw [runIn_bind_ok hrun, hrun']
  · rw [htrace', htrace, List.append_assoc]
  · rw [printedIn_append, hprinted, hprinted', hpainted]
  · rw [commandsIn_append, hcalls, hcalls']
  · obtain ⟨hplan, hrest⟩ := List.append_eq_nil_iff.mp hnil
    rw [hsame' hrest, hsame hplan, World.record_record]

theorem Performs.heading (style : Style) (word rest : Text) (hm : m.Performs lines plan) :
    (do let painted ← paint style word
        printLine (painted ++ ' ' :: rest)
        m : ReleaseM σ Unit).Performs
      (fun painted => (WorkspaceRelease.paint painted style word ++ ' ' :: rest ++ ['\n']) :: lines painted)
      plan := by
  intro w
  obtain ⟨after, events, hrun, htrace, hpainted, hwrite, hprinted, hcalls, hsame⟩ := hm
    (w.record [.output (.stdout (WorkspaceRelease.paint w.painted style word ++ ' ' :: rest ++ ['\n']))])
  refine ⟨after, .output (.stdout (WorkspaceRelease.paint w.painted style word ++ ' ' :: rest ++ ['\n'])) :: events,
    ?_, ?_, hpainted, ?_, ?_, hcalls, fun hnil => ?_⟩
  · rw [runIn_bind_ok (runIn_paint style word w), runIn_bind_ok (runIn_printLine _ w), hrun]
  · rw [htrace, World.record_trace, List.append_assoc, List.singleton_append]
  · exact List.forall_mem_cons.mpr ⟨rfl, hwrite⟩
  · exact congrArg (_ :: ·) hprinted
  · rw [hsame hnil, World.record_record, List.singleton_append]

theorem performs_execute {executor : Executor σ} (h : executor.Accepts) (i : Invocation) :
    (execute executor i).Performs (fun _ => []) [i] := by
  intro w
  have hrun := runIn_execute executor i w
  rw [h.ok] at hrun
  refine ⟨_, _, hrun, rfl, rfl, isWrite_call i _, ?_, congrArg (i :: ·) (commandsIn_outputs _), by simp⟩
  have hsilent := h.silent i w.state w.files
  rw [printedIn, List.filterMap_cons_none rfl, List.filterMap_map, List.filterMap_eq_nil_iff]
  intro o ho
  cases o with
  | stdout t => exact absurd rfl (hsilent _ ho t)
  | stderr t | log r => rfl

theorem performs_tryCatch {executor : Executor σ} (h : executor.Accepts) (i : Invocation)
    (handle : ReleaseError → ReleaseM σ Unit) :
    (tryCatch (execute executor i) handle).Performs (fun _ => []) [i] := by
  intro w
  obtain ⟨after, events, hrun, hrest⟩ := performs_execute h i w
  exact ⟨after, events, by rw [runIn_tryCatch, hrun], hrest⟩

end ReleaseM

namespace Dispatcher

open ReleaseM

variable {d : Dispatcher σ}

/-- A dispatcher that reaches no failure: it is dry, or its executor accepts all commands. -/
def Smooth (d : Dispatcher σ) : Prop := d.dryRun = true ∨ d.executor.Accepts

theorem performs_run (h : d.Smooth) (i : Invocation) :
    (d.run i).Performs (fun painted => [runningLine painted i]) (d.executed [i]) := by
  have hstep : (if d.dryRun then pure ()
      else if d.keepGoing then tryCatch (execute d.executor i) forgive
      else execute d.executor i : ReleaseM σ Unit).Performs (fun _ => []) (d.executed [i]) := by
    cases hdry : d.dryRun with
    | true => simpa [executed_dry hdry] using performs_pure (σ := σ)
    | false =>
      have haccepts : d.executor.Accepts := h.resolve_left (by simp [hdry])
      rw [executed_real hdry]
      cases hkeep : d.keepGoing with
      | true => simpa using performs_tryCatch haccepts i forgive
      | false => simpa using performs_execute haccepts i
  exact hstep.heading .cyan "running".toList i.display

theorem performs_tag (h : d.Smooth) (version : Text) :
    (d.tag version).Performs (fun painted => tagLines painted version)
      (d.executed [.commit version, .tag version]) := by
  have hplan : [Invocation.commit version, .tag version] = [.commit version] ++ [.tag version] := rfl
  rw [hplan, executed_append]
  exact ((d.performs_run h _).seq (d.performs_run h _)).heading .greenBold "tagging".toList (tagName version)

theorem performs_publish (h : d.Smooth) (order : List Text) :
    (d.publish order).Performs (fun painted => publishLines painted order)
      (d.executed (order.map .publish)) := by
  induction order with
  | nil =>
    have hnil : d.executed ([].map Invocation.publish) = [] := by cases hd : d.dryRun <;> simp [executed, hd]
    rw [hnil]
    exact performs_pure
  | cons package packages ih =>
    rw [show (package :: packages).map Invocation.publish =
      [.publish package] ++ packages.map Invocation.publish from rfl, executed_append]
    exact ((d.performs_run h _).seq ih).heading .greenBold "publishing".toList package

end Dispatcher

theorem performs_commandStage {c : Config} {executor : Executor σ} (h : c.dryRun = true ∨ executor.Accepts)
    (version : Text) (order : List Text) :
    (commandStage c executor version order).Performs (fun painted => commandLines painted c version order)
      ((c.dispatcher executor).executed (c.commands version order)) := by
  have hsmooth : (c.dispatcher executor).Smooth := h
  have hnil : (c.dispatcher executor).executed [] = [] := by simp [Dispatcher.executed]
  rw [Config.commands, Dispatcher.executed_append]
  have htag : (tagStage c executor version).Performs
      (fun painted => if c.tag then tagLines painted version else [])
      ((c.dispatcher executor).executed (if c.tag then [.commit version, .tag version] else [])) := by
    unfold tagStage
    cases c.tag with
    | true => exact Dispatcher.performs_tag hsmooth version
    | false => simpa [hnil] using ReleaseM.performs_pure (σ := σ)
  have hpublish : (publishStage c executor order).Performs
      (fun painted => if c.publish then publishLines painted order else [])
      ((c.dispatcher executor).executed (if c.publish then order.map .publish else [])) := by
    unfold publishStage
    cases c.publish with
    | true => exact Dispatcher.performs_publish hsmooth order
    | false => simpa [hnil] using ReleaseM.performs_pure (σ := σ)
  exact htag.seq hpublish

/-- The result, the lines and the commands of a release that no command fails. -/
def releaseReport (c : Config) (w : World σ) : Except ReleaseError Unit × List Text × List Invocation :=
  match dataOf w.files w.cwd c.workspace with
  | .error e => (.error e, announcement w.painted c, [])
  | .ok (version, order) =>
    if c.hasAction then
      match (stampOutcome c version w.cwd w.files).1 with
      | .error e => (.error e, announcement w.painted c ++ stampLines w.painted c version w.cwd w.files, [])
      | .ok _ =>
        (.ok (),
          announcement w.painted c ++ stampLines w.painted c version w.cwd w.files ++
            commandLines w.painted c version order,
          if c.dryRun then [] else c.commands version order)
    else (.ok (), announcement w.painted c ++ [idleLine], [])

theorem stampOutcome_files_of_dry {c : Config} (h : c.dryRun = true) (version : Text) (cwd : Location)
    (files : FileTree) : (stampOutcome c version cwd files).2 = files := by
  unfold stampOutcome stampWorkspace
  cases c.setVersion with
  | false => rfl
  | true =>
    cases membersOf files cwd c.workspace with
    | error e => rfl
    | ok manifests =>
      rw [h]
      exact (stampFiles_dry version c.family cwd files manifests).2.1

theorem release_report {c : Config} (executor : Executor σ) (h : c.dryRun = true ∨ executor.Accepts)
    (w : World σ) :
    ∃ events, ((release c executor).runIn w).2.trace = w.trace ++ events ∧
      (((release c executor).runIn w).1, printedIn events, commandsIn events) = releaseReport c w ∧
      (c.dryRun = true → (∀ e ∈ events, e.isWrite = false) ∧
        ((release c executor).runIn w).2 = w.record events) := by
  cases hdata : dataOf w.files w.cwd c.workspace with
  | error e =>
    obtain ⟨events, hevents, hrun⟩ := runIn_release_error c executor hdata
    have hcalls : commandsIn events = [] := commandsIn_eq_nil.mpr hevents.noCall
    rw [hrun]
    refine ⟨events, rfl, ?_, fun _ => ⟨hevents.noWrite rfl, rfl⟩⟩
    simp only [releaseReport, hdata, hevents.printed, hcalls]
  | ok data =>
    obtain ⟨version, order⟩ := data
    cases hact : c.hasAction with
    | false =>
      obtain ⟨opening, ⟨hopening, -, -⟩, hrun⟩ := runIn_release_idle executor hdata hact
      have hcalls : commandsIn opening = [] := commandsIn_eq_nil.mpr hopening.noCall
      rw [hrun]
      refine ⟨opening ++ [.output (.stdout idleLine)], rfl, ?_, fun _ => ⟨?_, rfl⟩⟩
      · simp only [releaseReport, hdata, hact, printedIn_append, commandsIn_append, hopening.printed, hcalls]
        rfl
      · exact List.forall_mem_append.mpr ⟨hopening.noWrite rfl, by simp [Event.isWrite]⟩
    | true =>
      obtain ⟨opening, stamping, ⟨hopening, -, -⟩, hstamping, hrun⟩ := runIn_release_active executor hdata hact
      have hcalls : commandsIn opening = [] := commandsIn_eq_nil.mpr hopening.noCall
      have hcalls' : commandsIn stamping = [] := commandsIn_eq_nil.mpr hstamping.noCall
      rw [hrun]
      cases hout : (stampOutcome c version w.cwd w.files).1 with
      | error e =>
        refine ⟨opening ++ stamping, rfl, ?_, fun hdry => ⟨?_, ?_⟩⟩
        · simp only [releaseReport, hdata, hact, ↓reduceIte, hout, printedIn_append, commandsIn_append,
            hopening.printed, hstamping.printed, hcalls, hcalls', List.append_nil]
        · exact List.forall_mem_append.mpr ⟨hopening.noWrite rfl, hstamping.noWrite hdry⟩
        · rw [stampOutcome_files_of_dry hdry]
      | ok u =>
        obtain ⟨after, dispatching, hcommand, htrace, -, hwrite, hprinted, hcommands, hsame⟩ :=
          performs_commandStage h version order
            ({ w with files := (stampOutcome c version w.cwd w.files).2 }.record (opening ++ stamping))
        simp only [World.record_trace, World.record_painted] at htrace hprinted
        simp only [hcommand]
        refine ⟨opening ++ stamping ++ dispatching, ?_, ?_, fun hdry => ⟨?_, ?_⟩⟩
        · rw [htrace, List.append_assoc]
        · simp only [releaseReport, hdata, hact, ↓reduceIte, hout, printedIn_append, commandsIn_append,
            hopening.printed, hstamping.printed, hprinted, hcalls, hcalls', hcommands, List.nil_append]
          rfl
        · exact List.forall_mem_append.mpr
            ⟨List.forall_mem_append.mpr ⟨hopening.noWrite rfl, hstamping.noWrite hdry⟩, hwrite⟩
        · have hnil : (c.dispatcher executor).executed (c.commands version order) = [] := if_pos hdry
          rw [hsame hnil, stampOutcome_files_of_dry hdry, World.record_record]

end WorkspaceRelease

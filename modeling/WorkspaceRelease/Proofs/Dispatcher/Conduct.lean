import WorkspaceRelease.Proofs.Release.Commands

/-!
What a dispatcher does with the commands of one operation, in each of its three modes, whatever its
executor makes of the commands before.
-/

namespace WorkspaceRelease

variable {σ : Type}

namespace Executor

/-- An executor whose commands print nothing: a state machine that accepts or refuses. -/
def Silent (executor : Executor σ) : Prop := ∀ i s files, (executor i s files).output = []

def advance (executor : Executor σ) (x : σ × FileTree) (i : Invocation) : σ × FileTree :=
  ((executor i x.1 x.2).state, (executor i x.1 x.2).files)

def answers (executor : Executor σ) (x : σ × FileTree) : List Invocation → List (Except ReleaseError Unit)
  | [] => []
  | i :: is => (executor i x.1 x.2).result :: answers executor (executor.advance x i) is

/-- The position of the first command that is refused; past the end if none is. -/
def firstRefused (executor : Executor σ) (x : σ × FileTree) (commands : List Invocation) : Nat :=
  (executor.answers x commands).findIdx fun r => !r.isOk

section

variable {executor : Executor σ} {x : σ × FileTree} {i : Invocation} (commands : List Invocation)

theorem firstRefused_cons_error {e : ReleaseError} (h : (executor i x.1 x.2).result = .error e) :
    executor.firstRefused x (i :: commands) = 0 := by
  simp [firstRefused, answers, List.findIdx_cons, h, Except.isOk, Except.toBool]

theorem firstRefused_cons_ok (h : (executor i x.1 x.2).result = .ok ()) :
    executor.firstRefused x (i :: commands) = executor.firstRefused (executor.advance x i) commands + 1 := by
  simp [firstRefused, answers, List.findIdx_cons, h, Except.isOk, Except.toBool]

end

end Executor

def failure? : Except ReleaseError Unit → Option ReleaseError
  | .ok _ => none
  | .error e => some e

def warningLine (painted : Bool) (e : ReleaseError) : Text :=
  paint painted .yellowBold "warning:".toList ++ ' ' :: e.message ++ ['\n']

namespace Event

def warned? : Event → Option Text
  | .output (.stderr t) => some t
  | _ => none

/-- Whether an event executes a command or announces one. -/
def isStep (painted : Bool) : Event → Bool
  | .call _ => true
  | .output (.stdout t) => isRunning painted t
  | _ => false

end Event

def warnedIn (es : List Event) : List Text := es.filterMap Event.warned?

def runningIn (painted : Bool) (es : List Event) : List Text := (printedIn es).filter (isRunning painted)

def stepsIn (painted : Bool) (es : List Event) : List Event := es.filter (Event.isStep painted)

/-- A command is announced right before it is executed. -/
def stepEvents (painted : Bool) (i : Invocation) : List Event :=
  [.output (.stdout (runningLine painted i)), .call i]

@[simp] theorem warnedIn_append (es fs : List Event) : warnedIn (es ++ fs) = warnedIn es ++ warnedIn fs :=
  List.filterMap_append

@[simp] theorem runningIn_append (painted : Bool) (es fs : List Event) :
    runningIn painted (es ++ fs) = runningIn painted es ++ runningIn painted fs := by
  simp [runningIn]

@[simp] theorem stepsIn_append (painted : Bool) (es fs : List Event) :
    stepsIn painted (es ++ fs) = stepsIn painted es ++ stepsIn painted fs := List.filter_append ..

theorem runningIn_eq_printedIn_stepsIn (painted : Bool) (es : List Event) :
    runningIn painted es = printedIn (stepsIn painted es) := by
  have hpoint : (fun e => (Event.printed? e).filter (isRunning painted)) =
      fun e => if Event.isStep painted e then Event.printed? e else none := by
    funext e
    match e with
    | .output (.stdout t) => cases h : isRunning painted t <;> simp [Event.isStep, Event.printed?, h]
    | .read _ | .write _ | .call _ | .output (.stderr _) | .output (.log _) => rfl
  rw [runningIn, stepsIn, printedIn, printedIn, List.filter_filterMap, List.filterMap_filter, hpoint]

theorem printedIn_steps (painted : Bool) (commands : List Invocation) :
    printedIn (commands.flatMap (stepEvents painted)) = commands.map (runningLine painted) := by
  induction commands with
  | nil => rfl
  | cons i is ih =>
    rw [List.flatMap_cons, printedIn_append, ih]
    rfl

namespace Dispatcher

open ReleaseM

variable {d : Dispatcher σ}

/-- What a dispatcher does with the commands of an operation. -/
structure Conduct (d : Dispatcher σ) (commands : List Invocation) (w : World σ)
    (result : Except ReleaseError Unit) (after : World σ) (events : List Event) : Prop where
  dry : d.dryRun = true → result = .ok () ∧ after = w.record events ∧ commandsIn events = [] ∧
    runningIn w.painted events = commands.map (runningLine w.painted) ∧ warnedIn events = []
  strict : d.dryRun = false → d.keepGoing = false →
    commandsIn events = commands.take (d.executor.firstRefused (w.state, w.files) commands + 1) ∧
    result = ((d.executor.answers (w.state, w.files) commands)[
      d.executor.firstRefused (w.state, w.files) commands]?).getD (.ok ()) ∧
    warnedIn events = []
  lenient : d.dryRun = false → d.keepGoing = true → commandsIn events = commands ∧ result = .ok () ∧
    warnedIn events = ((d.executor.answers (w.state, w.files) commands).filterMap failure?).map
      (warningLine w.painted)
  real : d.dryRun = false →
    (after.state, after.files) = (commandsIn events).foldl d.executor.advance (w.state, w.files) ∧
    stepsIn w.painted events = (commandsIn events).flatMap (stepEvents w.painted)

/-- An action that keeps the colours and deals with some commands as its dispatcher does. -/
def Conducts (d : Dispatcher σ) (m : ReleaseM σ Unit) (commands : List Invocation) : Prop :=
  ∀ w : World σ, ∃ events, (m.runIn w).2.trace = w.trace ++ events ∧ (m.runIn w).2.painted = w.painted ∧
    d.Conduct commands w (m.runIn w).1 (m.runIn w).2 events

theorem conducts_pure : d.Conducts (pure ()) [] := by
  intro w
  refine ⟨[], (List.append_nil _).symm, rfl, ?_, ?_, ?_, ?_⟩
  · intro _
    exact ⟨rfl, by simp [World.record], rfl, rfl, rfl⟩
  · intro _ _
    exact ⟨rfl, rfl, rfl⟩
  · intro _ _
    exact ⟨rfl, rfl, rfl⟩
  · intro _
    exact ⟨rfl, rfl⟩

/-- What is left in the trace of an answer that a dispatcher forgives. -/
def forgiven (painted : Bool) : Except ReleaseError Unit → List Event
  | .ok _ => []
  | .error e =>
    [.output (.log ⟨.debug, .dispatch, "Continuing after failure: ".toList ++ e.detail⟩),
      .output (.stderr (warningLine painted e))]

theorem runIn_run (hsilent : d.executor.Silent) (i : Invocation) (w : World σ) :
    (d.run i).runIn w =
      if d.dryRun then (.ok (), w.record [.output (.stdout (runningLine w.painted i))])
      else
        let reply := d.executor i w.state w.files
        let next : World σ := { w with state := reply.state, files := reply.files }
        if d.keepGoing then
          (.ok (), next.record (stepEvents w.painted i ++ forgiven w.painted reply.result))
        else (reply.result, next.record (stepEvents w.painted i)) := by
  let announced := w.record [.output (.stdout (runningLine w.painted i))]
  have hstart : (d.run i).runIn w =
      (if d.dryRun then pure ()
        else if d.keepGoing then tryCatch (execute d.executor i) forgive
        else execute d.executor i : ReleaseM σ Unit).runIn announced := by
    rw [Dispatcher.run, runIn_bind_ok (runIn_paint _ _ w), runIn_bind_ok (runIn_printLine _ w)]
    rfl
  rcases hreply : d.executor i w.state w.files with ⟨result, state, files, output⟩
  have hnone : output = [] := by simpa [hreply] using hsilent i w.state w.files
  have hexecute : (execute d.executor i).runIn announced =
      (result, { w with state, files }.record (stepEvents w.painted i)) := by
    rw [runIn_execute, World.record_state, World.record_files, hreply, hnone]
    simp [announced, World.record, stepEvents]
  rw [hstart]
  cases d.dryRun with
  | true => rfl
  | false =>
    cases d.keepGoing with
    | false => simp only [Bool.false_eq_true, ↓reduceIte, hexecute]
    | true =>
      simp only [Bool.false_eq_true, ↓reduceIte, runIn_tryCatch, hexecute]
      cases result with
      | ok u => simp only [forgiven, List.append_nil]
      | error e =>
        simp only [forgive, runIn_bind, runIn_log, runIn_paint]
        simp [World.record, stepEvents, forgiven, warnLine, warningLine]

theorem Conducts.heading {m : ReleaseM σ Unit} {commands : List Invocation} {word rest : Text}
    (hm : d.Conducts m commands) (hword : ∀ painted, isRunning painted (headingLine painted word rest) = false) :
    d.Conducts (do
      let painted ← ReleaseM.paint .greenBold word
      printLine (painted ++ ' ' :: rest)
      m) commands := by
  intro w
  let line : Event := .output (.stdout (headingLine w.painted word rest))
  have hrun : (do
      let painted ← ReleaseM.paint .greenBold word
      printLine (painted ++ ' ' :: rest)
      m : ReleaseM σ Unit).runIn w = m.runIn (w.record [line]) := by
    rw [runIn_bind_ok (runIn_paint _ _ w), runIn_bind_ok (runIn_printLine _ w)]
    rfl
  have hsteps : ∀ es, stepsIn w.painted (line :: es) = stepsIn w.painted es := by
    intro es
    rw [stepsIn, List.filter_cons_of_neg (by simp [line, Event.isStep, hword])]
    rfl
  have hrunning : ∀ es, runningIn w.painted (line :: es) = runningIn w.painted es := by
    intro es
    rw [runningIn_eq_printedIn_stepsIn, hsteps, runningIn_eq_printedIn_stepsIn]
  obtain ⟨events, htrace, hpainted, hconduct⟩ := hm (w.record [line])
  rw [hrun]
  refine ⟨line :: events, ?_, hpainted, ?_, hconduct.strict, hconduct.lenient, ?_⟩
  · rw [htrace, World.record_trace, List.append_assoc, List.singleton_append]
  · intro hdry
    obtain ⟨hresult, hafter, hcalls, hlines, hwarned⟩ := hconduct.dry hdry
    refine ⟨hresult, ?_, hcalls, (hrunning events).trans hlines, hwarned⟩
    rw [hafter, World.record_record, List.singleton_append]
  · intro hreal
    obtain ⟨hstate, haligned⟩ := hconduct.real hreal
    exact ⟨hstate, (hsteps events).trans haligned⟩

theorem stepsIn_stepEvents (painted : Bool) (i : Invocation) :
    stepsIn painted (stepEvents painted i) = stepEvents painted i := by
  simp [stepsIn, stepEvents, Event.isStep, isRunning_runningLine]

theorem stepsIn_forgiven (painted : Bool) (r : Except ReleaseError Unit) : stepsIn painted (forgiven painted r) = [] := by
  cases r <;> rfl

theorem commandsIn_forgiven (painted : Bool) (r : Except ReleaseError Unit) : commandsIn (forgiven painted r) = [] := by
  cases r <;> rfl

theorem warnedIn_forgiven (painted : Bool) (r : Except ReleaseError Unit) :
    warnedIn (forgiven painted r) = (failure? r).toList.map (warningLine painted) := by
  cases r <;> rfl

section Bind

variable {n : ReleaseM σ Unit} {commands : List Invocation}

theorem conduct_dry (hsilent : d.executor.Silent) (i : Invocation) (hn : d.Conducts n commands)
    (hdry : d.dryRun = true) : d.Conducts (d.run i >>= fun _ => n) (i :: commands) := by
  intro w
  let line : Event := .output (.stdout (runningLine w.painted i))
  have hrun : (d.run i).runIn w = (.ok (), w.record [line]) := by
    rw [runIn_run hsilent, if_pos hdry]
  obtain ⟨events, htrace, hpainted, hconduct⟩ := hn (w.record [line])
  obtain ⟨hresult, hafter, hcalls, hlines, hwarned⟩ := hconduct.dry hdry
  have hline : runningIn w.painted [line] = [runningLine w.painted i] := by
    simp [line, runningIn, printedIn, Event.printed?, isRunning_runningLine]
  rw [runIn_bind_ok hrun]
  refine ⟨[line] ++ events, ?_, hpainted, ?_, by simp [hdry], by simp [hdry], by simp [hdry]⟩
  · rw [htrace, World.record_trace, List.append_assoc]
  · intro _
    refine ⟨hresult, ?_, hcalls, ?_, hwarned⟩
    · rw [hafter, World.record_record]
    · rw [runningIn_append, hline]
      exact congrArg (_ :: ·) hlines

theorem conduct_lenient (hsilent : d.executor.Silent) (i : Invocation) (hn : d.Conducts n commands)
    (hreal : d.dryRun = false) (hkeep : d.keepGoing = true) :
    d.Conducts (d.run i >>= fun _ => n) (i :: commands) := by
  intro w
  let reply := d.executor i w.state w.files
  let early := stepEvents w.painted i ++ forgiven w.painted reply.result
  let next : World σ := { w with state := reply.state, files := reply.files }.record early
  have hrun : (d.run i).runIn w = (.ok (), next) := by
    rw [runIn_run hsilent]
    simp only [hreal, hkeep, Bool.false_eq_true, ↓reduceIte]
    rfl
  obtain ⟨events, htrace, hpainted, hconduct⟩ := hn next
  obtain ⟨hcalls, hresult, hwarned⟩ := hconduct.lenient hreal hkeep
  obtain ⟨hstate, haligned⟩ := hconduct.real hreal
  have hearly : commandsIn early = [i] := by
    rw [commandsIn_append, commandsIn_forgiven]
    rfl
  rw [runIn_bind_ok hrun]
  refine ⟨early ++ events, ?_, hpainted, by simp [hreal], by simp [hkeep], ?_, ?_⟩
  · rw [htrace, World.record_trace, List.append_assoc]
  · intro _ _
    refine ⟨?_, hresult, ?_⟩
    · rw [commandsIn_append, hearly, hcalls, List.singleton_append]
    · have hcons : d.executor.answers (w.state, w.files) (i :: commands) =
          reply.result :: d.executor.answers (next.state, next.files) commands := rfl
      rw [warnedIn_append, warnedIn_append, warnedIn_forgiven, hwarned, hcons]
      cases reply.result <;> rfl
  · intro _
    refine ⟨?_, ?_⟩
    · rw [commandsIn_append, hearly, List.singleton_append, List.foldl_cons]
      exact hstate
    · rw [stepsIn_append, stepsIn_append, stepsIn_stepEvents, stepsIn_forgiven, List.append_nil,
        commandsIn_append, hearly, List.singleton_append, List.flatMap_cons]
      exact congrArg (_ ++ ·) haligned

theorem conduct_strict (hsilent : d.executor.Silent) (i : Invocation) (hn : d.Conducts n commands)
    (hreal : d.dryRun = false) (hkeep : d.keepGoing = false) :
    d.Conducts (d.run i >>= fun _ => n) (i :: commands) := by
  intro w
  let reply := d.executor i w.state w.files
  let next : World σ := { w with state := reply.state, files := reply.files }.record (stepEvents w.painted i)
  have hrun : (d.run i).runIn w = (reply.result, next) := by
    rw [runIn_run hsilent]
    simp only [hreal, hkeep, Bool.false_eq_true, ↓reduceIte]
    rfl
  cases hreply : reply.result with
  | error e =>
    have hfirst : d.executor.firstRefused (w.state, w.files) (i :: commands) = 0 :=
      Executor.firstRefused_cons_error commands hreply
    rw [runIn_bind, hrun, hreply]
    refine ⟨stepEvents w.painted i, rfl, rfl, by simp [hreal], ?_, by simp [hkeep], ?_⟩
    · intro _ _
      rw [hfirst]
      exact ⟨rfl, hreply.symm, rfl⟩
    · intro _
      refine ⟨rfl, ?_⟩
      rw [stepsIn_stepEvents]
      rfl
  | ok u =>
    have hfirst : d.executor.firstRefused (w.state, w.files) (i :: commands) =
        d.executor.firstRefused (next.state, next.files) commands + 1 :=
      Executor.firstRefused_cons_ok commands hreply
    rw [hreply] at hrun
    obtain ⟨events, htrace, hpainted, hconduct⟩ := hn next
    obtain ⟨hcalls, hresult, hwarned⟩ := hconduct.strict hreal hkeep
    obtain ⟨hstate, haligned⟩ := hconduct.real hreal
    have hstep : commandsIn (stepEvents w.painted i ++ events) = i :: commandsIn events := rfl
    rw [runIn_bind_ok hrun]
    refine ⟨stepEvents w.painted i ++ events, ?_, hpainted, by simp [hreal], ?_, by simp [hkeep], ?_⟩
    · rw [htrace, World.record_trace, List.append_assoc]
    · intro _ _
      rw [hfirst, hstep, hcalls, List.take_succ_cons]
      exact ⟨rfl, hresult, hwarned⟩
    · intro _
      rw [hstep, List.foldl_cons, stepsIn_append, stepsIn_stepEvents]
      exact ⟨hstate, congrArg (_ ++ ·) haligned⟩

end Bind

theorem conducts_run_bind (hsilent : d.executor.Silent) (i : Invocation) {n : ReleaseM σ Unit}
    {commands : List Invocation} (hn : d.Conducts n commands) :
    d.Conducts (d.run i >>= fun _ => n) (i :: commands) := by
  cases hdry : d.dryRun with
  | true => exact conduct_dry hsilent i hn hdry
  | false =>
    cases hkeep : d.keepGoing with
    | true => exact conduct_lenient hsilent i hn hdry hkeep
    | false => exact conduct_strict hsilent i hn hdry hkeep

theorem conducts_run (hsilent : d.executor.Silent) (i : Invocation) : d.Conducts (d.run i) [i] := by
  have hbind := conducts_run_bind hsilent i conducts_pure
  rwa [bind_pure_unit] at hbind

theorem conducts_tag (hsilent : d.executor.Silent) (version : Text) :
    d.Conducts (d.tag version) [.commit version, .tag version] := by
  have hrest := conducts_run_bind hsilent (.commit version) (conducts_run hsilent (.tag version))
  exact hrest.heading fun painted => isRunning_tagging painted (tagName version)

theorem conducts_publish (hsilent : d.executor.Silent) (order : List Text) :
    d.Conducts (d.publish order) (order.map .publish) := by
  induction order with
  | nil => exact conducts_pure
  | cons package packages ih =>
    have hrest := conducts_run_bind hsilent (.publish package) ih
    exact hrest.heading fun painted => isRunning_publishing painted package

end Dispatcher

end WorkspaceRelease

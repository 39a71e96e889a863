import WorkspaceRelease.Proofs.Dispatcher.Conduct

/-!
Operations on one dispatcher in turn: the results, the commands, the lines and the warnings of a whole
series.
-/

namespace WorkspaceRelease

variable {σ : Type}

inductive Operation where
  | run (i : Invocation)
  | tag (version : Text)
  | publish (order : List Text)
  deriving DecidableEq, Repr

namespace Operation

def commands : Operation → List Invocation
  | .run i => [i]
  | .tag version => [.commit version, .tag version]
  | .publish order => order.map .publish

end Operation

namespace Dispatcher

variable {d : Dispatcher σ}

def perform (d : Dispatcher σ) : Operation → ReleaseM σ Unit
  | .run i => d.run i
  | .tag version => d.tag version
  | .publish order => d.publish order

/-- Performs the operations in turn, whatever became of those before, with the result of each. -/
def performAll (d : Dispatcher σ) : List Operation → World σ → List (Except ReleaseError Unit) × World σ
  | [], w => ([], w)
  | op :: ops, w =>
    let (result, next) := (d.perform op).runIn w
    let (results, after) := d.performAll ops next
    (result :: results, after)

theorem conducts_perform (hsilent : d.executor.Silent) (op : Operation) :
    d.Conducts (d.perform op) op.commands := by
  cases op with
  | run i => exact conducts_run hsilent i
  | tag version => exact conducts_tag hsilent version
  | publish order => exact conducts_publish hsilent order

/-- Operations that are each conducted from where the one before has ended. -/
inductive Series (d : Dispatcher σ) :
    List Operation → World σ → List (Except ReleaseError Unit) → World σ → List Event → Prop
  | nil (w : World σ) : Series d [] w [] w []
  | cons {op : Operation} {ops : List Operation} {w next after : World σ} {result : Except ReleaseError Unit}
      {results : List (Except ReleaseError Unit)} {events more : List Event} :
      next.trace = w.trace ++ events → next.painted = w.painted →
      d.Conduct op.commands w result next events → Series d ops next results after more →
      Series d (op :: ops) w (result :: results) after (events ++ more)

/-- What is to be seen of a whole series: in a dry run all commands and no trace of the executor, in a real
one each command right after its line. -/
structure Account (d : Dispatcher σ) (ops : List Operation) (w : World σ)
    (results : List (Except ReleaseError Unit)) (after : World σ) (events : List Event) : Prop where
  series : d.Series ops w results after events
  dry : d.dryRun = true → results = ops.map (fun _ => .ok ()) ∧ after = w.record events ∧
    commandsIn events = [] ∧
    runningIn w.painted events = (ops.flatMap Operation.commands).map (runningLine w.painted)
  real : d.dryRun = false →
    (after.state, after.files) = (commandsIn events).foldl d.executor.advance (w.state, w.files) ∧
    runningIn w.painted events = (commandsIn events).map (runningLine w.painted) ∧
    stepsIn w.painted events = (commandsIn events).flatMap (stepEvents w.painted)

theorem Series.dry {ops : List Operation} {w after : World σ} {results : List (Except ReleaseError Unit)}
    {events : List Event} (h : d.Series ops w results after events) (hdry : d.dryRun = true) :
    results = ops.map (fun _ => .ok ()) ∧ after = w.record events ∧ commandsIn events = [] ∧
      runningIn w.painted events = (ops.flatMap Operation.commands).map (runningLine w.painted) := by
  induction h with
  | nil w => exact ⟨rfl, by simp [World.record], rfl, rfl⟩
  | @cons op ops w next after result results events more htrace hpainted hconduct _ ih =>
    obtain ⟨hresult, hnext, hcalls, hlines, -⟩ := hconduct.dry hdry
    obtain ⟨hresults, hafter, hcalls', hlines'⟩ := ih
    rw [hpainted] at hlines'
    refine ⟨?_, ?_, ?_, ?_⟩
    · rw [hresult, hresults, List.map_cons]
    · rw [hafter, hnext, World.record_record]
    · rw [commandsIn_append, hcalls, hcalls', List.nil_append]
    · rw [runningIn_append, hlines, hlines', List.flatMap_cons, List.map_append]

theorem Series.real {ops : List Operation} {w after : World σ} {results : List (Except ReleaseError Unit)}
    {events : List Event} (h : d.Series ops w results after events) (hreal : d.dryRun = false) :
    (after.state, after.files) = (commandsIn events).foldl d.executor.advance (w.state, w.files) ∧
      stepsIn w.painted events = (commandsIn events).flatMap (stepEvents w.painted) := by
  induction h with
  | nil w => exact ⟨rfl, rfl⟩
  | @cons op ops w next after result results events more htrace hpainted hconduct _ ih =>
    obtain ⟨hstate, haligned⟩ := hconduct.real hreal
    obtain ⟨hstate', haligned'⟩ := ih
    rw [hpainted] at haligned'
    refine ⟨?_, ?_⟩
    · rw [hstate', hstate, commandsIn_append, List.foldl_append]
    · rw [stepsIn_append, haligned, haligned', commandsIn_append, List.flatMap_append]

theorem series_performAll (hsilent : d.executor.Silent) (ops : List Operation) (w : World σ) :
    ∃ events, (d.performAll ops w).2.trace = w.trace ++ events ∧
      d.Series ops w (d.performAll ops w).1 (d.performAll ops w).2 events := by
  induction ops generalizing w with
  | nil => exact ⟨[], (List.append_nil _).symm, .nil w⟩
  | cons op ops ih =>
    obtain ⟨events, htrace, hpainted, hconduct⟩ := conducts_perform hsilent op w
    obtain ⟨more, htrace', hseries⟩ := ih ((d.perform op).runIn w).2
    refine ⟨events ++ more, ?_, .cons htrace hpainted hconduct hseries⟩
    calc (d.performAll (op :: ops) w).2.trace
        = ((d.perform op).runIn w).2.trace ++ more := htrace'
      _ = w.trace ++ (events ++ more) := by rw [htrace, List.append_assoc]

theorem performAll_account {d : Dispatcher σ} (hsilent : d.executor.Silent) (ops : List Operation)
    (w : World σ) :
    ∃ events, (d.performAll ops w).2.trace = w.trace ++ events ∧
      d.Account ops w (d.performAll ops w).1 (d.performAll ops w).2 events := by
  obtain ⟨events, htrace, hseries⟩ := series_performAll hsilent ops w
  refine ⟨events, htrace, hseries, hseries.dry, fun hreal => ?_⟩
  obtain ⟨hstate, haligned⟩ := hseries.real hreal
  refine ⟨hstate, ?_, haligned⟩
  rw [runningIn_eq_printedIn_stepsIn, haligned, printedIn_steps]

/-- An executor that refuses every second command. -/
def faltering : Executor Nat := fun i n files =>
  ⟨if n % 2 = 1 then .error (.commandFailed i.display (.exited 1)) else .ok (), n + 1, files, []⟩

theorem performAll_account_faltering :
    ∃ events, (performAll ⟨faltering, false, false⟩ [.tag ['1'], .publish [['a'], ['a'], ['b']]]
        ⟨{}, [], 0, false, []⟩).2.trace = [] ++ events ∧
      Account ⟨faltering, false, false⟩ [.tag ['1'], .publish [['a'], ['a'], ['b']]] ⟨{}, [], 0, false, []⟩
        (performAll ⟨faltering, false, false⟩ [.tag ['1'], .publish [['a'], ['a'], ['b']]]
          ⟨{}, [], 0, false, []⟩).1
        (performAll ⟨faltering, false, false⟩ [.tag ['1'], .publish [['a'], ['a'], ['b']]]
          ⟨{}, [], 0, false, []⟩).2 events :=
  performAll_account (fun _ _ _ => rfl) _ _

end Dispatcher

end WorkspaceRelease

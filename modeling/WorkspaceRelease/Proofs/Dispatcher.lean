import WorkspaceRelease.Dispatcher
import WorkspaceRelease.Proofs.Effect

/-!
Which commands a dispatcher hands to its executor, whatever the executor answers.
-/

namespace WorkspaceRelease

variable {σ α β : Type}

namespace ReleaseM

/-- Whatever the world, an action writes nothing and executes a plan from its start on: all of it
where it succeeds. -/
def Issues (m : ReleaseM σ α) (plan : List Invocation) : Prop :=
  ∀ w : World σ, ∃ events, (m.runIn w).2.trace = w.trace ++ events ∧
    (∀ e ∈ events, e.isWrite = false) ∧ commandsIn events <+: plan ∧
    ∀ a, (m.runIn w).1 = .ok a → commandsIn events = plan

theorem issues_pure (a : α) : (pure a : ReleaseM σ α).Issues [] :=
  fun _ => ⟨[], by simp, by simp, List.prefix_refl _, fun _ _ => rfl⟩

theorem issues_emit (o : Output) : (emit o : ReleaseM σ Unit).Issues [] :=
  fun w => ⟨[.output o], by simp, by simp [Event.isWrite], List.prefix_refl _, fun _ _ => rfl⟩

theorem issues_paint (style : Style) (word : Text) : (paint style word : ReleaseM σ Text).Issues [] :=
  fun w => ⟨[], by simp, by simp, List.prefix_refl _, fun _ _ => rfl⟩

theorem Issues.bind {m : ReleaseM σ α} {f : α → ReleaseM σ β} {plan rest : List Invocation}
    (hm : m.Issues plan) (hf : ∀ a, (f a).Issues rest) : (m >>= f).Issues (plan ++ rest) := by
  intro w
  obtain ⟨events, htrace, hwrite, hpre, hall⟩ := hm w
  rw [runIn_bind]
  rcases hrun : m.runIn w with ⟨_ | a, w'⟩
  · rw [hrun] at htrace
    exact ⟨events, htrace, hwrite, hpre.trans (List.prefix_append _ _), fun b hb => by simp at hb⟩
  · rw [hrun] at htrace
    have heq : commandsIn events = plan := hall a (by rw [hrun])
    obtain ⟨more, htrace', hwrite', hpre', hall'⟩ := hf a w'
    refine ⟨events ++ more, ?_, ?_, ?_, ?_⟩
    · rw [htrace', htrace, List.append_assoc]
    · intro e he
      rcases List.mem_append.mp he with he | he
      · exact hwrite e he
      · exact hwrite' e he
    · rw [commandsIn_append, heq]
      exact (List.prefix_append_right_inj plan).mpr hpre'
    · intro b hb
      rw [commandsIn_append, heq, hall' b hb]

theorem commandsIn_outputs (os : List Output) : commandsIn (os.map Event.output) = [] := by
  simp [commandsIn, List.filterMap_eq_nil_iff, Event.call?]

theorem isWrite_call (i : Invocation) (os : List Output) :
    ∀ e ∈ Event.call i :: os.map Event.output, e.isWrite = false := by
  intro e he
  simp only [List.mem_cons, List.mem_map] at he
  rcases he with rfl | ⟨o, _, rfl⟩ <;> rfl

theorem execute_events (executor : Executor σ) (i : Invocation) (w : World σ) :
    ∃ events, ((execute executor i).runIn w).2.trace = w.trace ++ events ∧
      (∀ e ∈ events, e.isWrite = false) ∧ commandsIn events = [i] := by
  rw [runIn_execute]
  exact ⟨_, rfl, isWrite_call i _, congrArg (i :: ·) (commandsIn_outputs _)⟩

theorem issues_execute (executor : Executor σ) (i : Invocation) : (execute executor i).Issues [i] := by
  intro w
  obtain ⟨events, htrace, hwrite, hcalls⟩ := execute_events executor i w
  exact ⟨events, htrace, hwrite, hcalls ▸ List.prefix_refl _, fun _ _ => hcalls⟩

/-- A failure that is handled without executing anything does not undo the call. -/
theorem issues_tryCatch (executor : Executor σ) (i : Invocation)
    {handle : ReleaseError → ReleaseM σ Unit} (hh : ∀ e, (handle e).Issues []) :
    (tryCatch (execute executor i) handle).Issues [i] := by
  intro w
  obtain ⟨events, htrace, hwrite, hcalls⟩ := execute_events executor i w
  rw [runIn_tryCatch]
  rcases hrun : (execute executor i).runIn w with ⟨e | a, w'⟩
  · rw [hrun] at htrace
    obtain ⟨more, hmore, hwrite', hpre, _⟩ := hh e w'
    have hall : commandsIn (events ++ more) = [i] := by
      rw [commandsIn_append, hcalls, List.prefix_nil.mp hpre, List.append_nil]
    refine ⟨events ++ more, ?_, ?_, hall ▸ List.prefix_refl _, fun _ _ => hall⟩
    · rw [hmore, htrace, List.append_assoc]
    · intro e he
      rcases List.mem_append.mp he with he | he
      · exact hwrite e he
      · exact hwrite' e he
  · rw [hrun] at htrace
    exact ⟨events, htrace, hwrite, hcalls ▸ List.prefix_refl _, fun _ _ => hcalls⟩

end ReleaseM

namespace Dispatcher

open ReleaseM

def executed (d : Dispatcher σ) (plan : List Invocation) : List Invocation :=
  if d.dryRun then [] else plan

theorem executed_append (d : Dispatcher σ) (plan rest : List Invocation) :
    d.executed (plan ++ rest) = d.executed plan ++ d.executed rest := by
  cases h : d.dryRun <;> simp [executed, h]

theorem issues_forgive (e : ReleaseError) : (forgive e : ReleaseM σ Unit).Issues [] :=
  (issues_emit _).bind fun _ => (issues_paint _ _).bind fun _ => issues_emit _

theorem executed_dry {d : Dispatcher σ} (h : d.dryRun = true) (plan : List Invocation) :
    d.executed plan = [] := if_pos h

theorem executed_real {d : Dispatcher σ} (h : d.dryRun = false) (plan : List Invocation) :
    d.executed plan = plan := by
  simp [executed, h]

theorem issues_run (d : Dispatcher σ) (i : Invocation) : (d.run i).Issues (d.executed [i]) := by
  have hstep : (if d.dryRun then pure ()
      else if d.keepGoing then tryCatch (execute d.executor i) forgive
      else execute d.executor i : ReleaseM σ Unit).Issues (d.executed [i]) := by
    cases hdry : d.dryRun with
    | true => simpa [executed_dry hdry] using issues_pure (σ := σ) ()
    | false =>
      rw [executed_real hdry]
      cases hkeep : d.keepGoing with
      | true => simpa using issues_tryCatch d.executor i issues_forgive
      | false => simpa using issues_execute d.executor i
  exact (issues_paint _ _).bind fun _ => (issues_emit _).bind fun _ => hstep

theorem issues_tag (d : Dispatcher σ) (version : Text) :
    (d.tag version).Issues (d.executed [.commit version, .tag version]) := by
  rw [show [Invocation.commit version, .tag version] = [.commit version] ++ [.tag version] from rfl,
    executed_append]
  exact (issues_paint _ _).bind fun _ => (issues_emit _).bind fun _ =>
    (d.issues_run _).bind fun _ => d.issues_run _

theorem issues_publish (d : Dispatcher σ) (order : List Text) :
    (d.publish order).Issues (d.executed (order.map .publish)) := by
  induction order with
  | nil =>
    have h : d.executed ([].map Invocation.publish) = [] := by cases hd : d.dryRun <;> simp [executed, hd]
    rw [h]
    exact issues_pure ()
  | cons package packages ih =>
    rw [show (package :: packages).map Invocation.publish =
      [.publish package] ++ packages.map Invocation.publish from rfl, executed_append]
    exact (issues_paint _ _).bind fun _ => (issues_emit _).bind fun _ =>
      (d.issues_run _).bind fun _ => ih

end Dispatcher

end WorkspaceRelease

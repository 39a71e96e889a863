import WorkspaceRelease.Proofs.Release.Stages

/-!
What the commands of a release leave as it is.
-/

namespace WorkspaceRelease

variable {σ α β : Type}

namespace ReleaseM

/-- An action stays in its directory and keeps what is known of the files. -/
def Keeps (P : FileTree → Prop) (m : ReleaseM σ α) : Prop :=
  ∀ w : World σ, P w.files → P (m.runIn w).2.files ∧ (m.runIn w).2.cwd = w.cwd

variable {P : FileTree → Prop}

theorem keeps_pure (a : α) : (pure a : ReleaseM σ α).Keeps P := fun _ h => ⟨h, rfl⟩

theorem keeps_emit (o : Output) : (emit o : ReleaseM σ Unit).Keeps P := fun _ h => ⟨h, rfl⟩

theorem keeps_paint (style : Style) (word : Text) : (paint style word : ReleaseM σ Text).Keeps P :=
  fun _ h => ⟨h, rfl⟩

theorem Keeps.bind {m : ReleaseM σ α} {f : α → ReleaseM σ β} (hm : m.Keeps P) (hf : ∀ a, (f a).Keeps P) :
    (m >>= f).Keeps P := by
  intro w hw
  obtain ⟨hfiles, hcwd⟩ := hm w hw
  rw [runIn_bind]
  rcases hrun : m.runIn w with ⟨_ | a, w'⟩
  · rw [hrun] at hfiles hcwd
    exact ⟨hfiles, hcwd⟩
  · rw [hrun] at hfiles hcwd
    obtain ⟨hfiles', hcwd'⟩ := hf a w' hfiles
    exact ⟨hfiles', hcwd'.trans hcwd⟩

theorem Keeps.tryCatch {m : ReleaseM σ α} {handle : ReleaseError → ReleaseM σ α} (hm : m.Keeps P)
    (hh : ∀ e, (handle e).Keeps P) : (tryCatch m handle).Keeps P := by
  intro w hw
  obtain ⟨hfiles, hcwd⟩ := hm w hw
  rw [runIn_tryCatch]
  rcases hrun : m.runIn w with ⟨e | _, w'⟩
  · rw [hrun] at hfiles hcwd
    obtain ⟨hfiles', hcwd'⟩ := hh e w' hfiles
    exact ⟨hfiles', hcwd'.trans hcwd⟩
  · rw [hrun] at hfiles hcwd
    exact ⟨hfiles, hcwd⟩

theorem keeps_execute {executor : Executor σ} (h : ∀ i s files, P files → P (executor i s files).files)
    (i : Invocation) : (execute executor i).Keeps P := by
  intro w hw
  rw [runIn_execute]
  exact ⟨h i w.state w.files hw, rfl⟩

end ReleaseM

section Keeps

open ReleaseM

variable {P : FileTree → Prop} {d : Dispatcher σ}

theorem Dispatcher.keeps_run (h : ∀ i s files, P files → P (d.executor i s files).files) (i : Invocation) :
    (d.run i).Keeps P := by
  have hforgive : ∀ e, (Dispatcher.forgive e : ReleaseM σ Unit).Keeps P := fun e =>
    (keeps_emit _).bind fun _ => (keeps_paint _ _).bind fun _ => keeps_emit _
  refine (keeps_paint _ _).bind fun _ => (keeps_emit _).bind fun _ => ?_
  split
  · exact keeps_pure ()
  · split
    · exact (keeps_execute h i).tryCatch hforgive
    · exact keeps_execute h i

theorem Dispatcher.keeps_tag (h : ∀ i s files, P files → P (d.executor i s files).files) (version : Text) :
    (d.tag version).Keeps P :=
  (keeps_paint _ _).bind fun _ => (keeps_emit _).bind fun _ =>
    (d.keeps_run h _).bind fun _ => d.keeps_run h _

theorem Dispatcher.keeps_publish (h : ∀ i s files, P files → P (d.executor i s files).files)
    (order : List Text) : (d.publish order).Keeps P := by
  induction order with
  | nil => exact keeps_pure ()
  | cons package packages ih =>
    exact (keeps_paint _ _).bind fun _ => (keeps_emit _).bind fun _ =>
      (d.keeps_run h _).bind fun _ => ih

theorem keeps_commandStage {executor : Executor σ} (h : ∀ i s files, P files → P (executor i s files).files)
    (c : Config) (version : Text) (order : List Text) :
    (commandStage c executor version order).Keeps P := by
  refine ReleaseM.Keeps.bind ?_ fun _ => ?_
  · unfold tagStage
    split
    · exact Dispatcher.keeps_tag h version
    · exact keeps_pure ()
  · unfold publishStage
    split
    · exact Dispatcher.keeps_publish h order
    · exact keeps_pure ()

end Keeps

end WorkspaceRelease

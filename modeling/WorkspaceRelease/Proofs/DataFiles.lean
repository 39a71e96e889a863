import WorkspaceRelease.DataFiles
import WorkspaceRelease.Proofs.Effect

/-!
Loading the two data files, as functions of the tree of files.
-/

namespace WorkspaceRelease

variable {σ : Type}

def versionOf (files : FileTree) (cwd : Location) (workspace : Path) : Except ReleaseError Text :=
  match files.readText cwd (workspace.join versionFile) with
  | .error cause => .error (.configRead (workspace.join versionFile) cause)
  | .ok t =>
    match versionIn? t with
    | none => .error (.emptyVersion (workspace.join versionFile))
    | some version => .ok version

def publishOrderOf (files : FileTree) (cwd : Location) (workspace : Path) :
    Except ReleaseError (List Text) :=
  match files.readText cwd (workspace.join publishOrderFile) with
  | .error cause => .error (.configRead (workspace.join publishOrderFile) cause)
  | .ok t => .ok (publishOrderIn t)

theorem versionIn?_eq_none {t : Text} : versionIn? t = none ↔ t.trim = [] := by
  unfold versionIn?
  cases t.trim <;> simp

theorem versionIn?_eq_some {t version : Text} :
    versionIn? t = some version ↔ t.trim = version ∧ version ≠ [] := by
  unfold versionIn?
  cases t.trim with
  | nil =>
    simp only [reduceCtorEq, false_iff, not_and]
    exact fun h hne => hne h.symm
  | cons c s =>
    simp only [Option.some.injEq]
    constructor
    · rintro rfl
      exact ⟨rfl, List.cons_ne_nil _ _⟩
    · exact fun h => h.1

theorem versionOf_eq_blank {files : FileTree} {cwd : Location} {workspace : Path} {t : Text}
    (h : files.readText cwd (workspace.join versionFile) = .ok t) (ht : t.trim = []) :
    versionOf files cwd workspace = .error (.emptyVersion (workspace.join versionFile)) := by
  simp only [versionOf, h, versionIn?_eq_none.mpr ht]

theorem versionOf_eq_ok {files : FileTree} {cwd : Location} {workspace : Path} {t : Text}
    (h : files.readText cwd (workspace.join versionFile) = .ok t) (ht : t.trim ≠ []) :
    versionOf files cwd workspace = .ok t.trim := by
  simp only [versionOf, h, versionIn?_eq_some.mpr ⟨rfl, ht⟩]

theorem exists_of_versionOf_eq_ok {files : FileTree} {cwd : Location} {workspace : Path} {version : Text}
    (h : versionOf files cwd workspace = .ok version) :
    ∃ t, files.readText cwd (workspace.join versionFile) = .ok t ∧ t.trim = version ∧ version ≠ [] := by
  unfold versionOf at h
  cases hread : files.readText cwd (workspace.join versionFile) with
  | error cause => simp [hread] at h
  | ok t =>
    simp only [hread] at h
    cases hv : versionIn? t with
    | none => simp [hv] at h
    | some v =>
      obtain rfl : v = version := by simpa [hv] using h
      obtain ⟨ht, hne⟩ := versionIn?_eq_some.mp hv
      exact ⟨t, rfl, ht, hne⟩

theorem runIn_loadVersion (workspace : Path) (w : World σ) :
    ∃ logs : List Event, (∀ e ∈ logs, e.isQuiet) ∧
      (loadVersion workspace).runIn w =
        (versionOf w.files w.cwd workspace,
          w.record (.read (workspace.join versionFile) :: logs)) := by
  simp only [loadVersion, ReleaseM.runIn_bind, ReleaseM.runIn_readText, versionOf]
  cases w.files.readText w.cwd (workspace.join versionFile) with
  | error cause => exact ⟨[], by simp, rfl⟩
  | ok t =>
    simp only [mapError_ok]
    cases versionIn? t with
    | none => exact ⟨[], by simp, rfl⟩
    | some version =>
      refine ⟨[.output (.log ⟨.debug, .config, "Loaded version ".toList ++ version ++ " from ".toList ++
        workspace.join versionFile⟩)], by simp [Event.isQuiet], ?_⟩
      simp only [ReleaseM.runIn_bind, ReleaseM.runIn_log, ReleaseM.runIn_pure, World.record_record]
      rfl

theorem runIn_loadPublishOrder (workspace : Path) (w : World σ) :
    ∃ logs : List Event, (∀ e ∈ logs, e.isQuiet) ∧
      (loadPublishOrder workspace).runIn w =
        (publishOrderOf w.files w.cwd workspace,
          w.record (.read (workspace.join publishOrderFile) :: logs)) := by
  simp only [loadPublishOrder, ReleaseM.runIn_bind, ReleaseM.runIn_readText, publishOrderOf]
  cases w.files.readText w.cwd (workspace.join publishOrderFile) with
  | error cause => exact ⟨[], by simp, rfl⟩
  | ok t =>
    refine ⟨[.output (.log ⟨.debug, .config, "Loaded ".toList ++ Text.ofNat (publishOrderIn t).length ++
      " packages from ".toList ++ workspace.join publishOrderFile⟩)], by simp [Event.isQuiet], ?_⟩
    simp only [mapError_ok, ReleaseM.runIn_log, ReleaseM.runIn_pure, World.record_record]
    rfl

end WorkspaceRelease

import WorkspaceRelease.Effect

/-!
What an action does to a world, as a pair of its result and the world it leaves behind, and which
events it adds to the trace.
-/

namespace WorkspaceRelease

variable {σ α β : Type}

theorem mapError_ok {ε ε' : Type} (f : ε → ε') (a : α) : (Except.ok a : Except ε α).mapError f = .ok a := rfl

theorem mapError_error {ε ε' : Type} (f : ε → ε') (e : ε) :
    (Except.error e : Except ε α).mapError f = .error (f e) := rfl

theorem eq_ok_of_isOk {r : Except ReleaseError Unit} (h : r.isOk = true) : r = .ok () := by
  cases r with
  | error e => simp [Except.isOk, Except.toBool] at h
  | ok u => rfl

namespace ReleaseM

def runIn (m : ReleaseM σ α) (w : World σ) : Except ReleaseError α × World σ := m.run.run w

@[simp] theorem runIn_pure (a : α) (w : World σ) : (pure a : ReleaseM σ α).runIn w = (.ok a, w) := rfl

theorem runIn_bind (m : ReleaseM σ α) (f : α → ReleaseM σ β) (w : World σ) :
    (m >>= f).runIn w =
      match m.runIn w with
      | (.ok a, w) => (f a).runIn w
      | (.error e, w) => (.error e, w) := by
  have h : (m >>= f).runIn w =
      (ExceptT.bindCont f (m.runIn w).1 : StateM (World σ) _).run (m.runIn w).2 := rfl
  rw [h]
  obtain ⟨r, w'⟩ := m.runIn w
  cases r <;> rfl

theorem runIn_bind_ok {m : ReleaseM σ α} {f : α → ReleaseM σ β} {w w' : World σ} {a : α}
    (h : m.runIn w = (.ok a, w')) : (m >>= f).runIn w = (f a).runIn w' := by
  rw [runIn_bind, h]

theorem runIn_tryCatch (m : ReleaseM σ α) (handle : ReleaseError → ReleaseM σ α) (w : World σ) :
    (tryCatch m handle).runIn w =
      match m.runIn w with
      | (.ok a, w) => (.ok a, w)
      | (.error e, w) => (handle e).runIn w := by
  unfold runIn ExceptT.run StateT.run
  simp only [tryCatch, tryCatchThe, MonadExceptOf.tryCatch, ExceptT.tryCatch, ExceptT.mk, bind,
    StateT.bind]
  obtain ⟨r, w'⟩ := m w
  cases r <;> rfl

theorem runIn_get (w : World σ) : (get : ReleaseM σ (World σ)).runIn w = (.ok w, w) := rfl

theorem runIn_set (w' w : World σ) : (set w' : ReleaseM σ PUnit).runIn w = (.ok ⟨⟩, w') := rfl

@[simp] theorem runIn_emit (o : Output) (w : World σ) :
    (emit o).runIn w = (.ok (), w.record [.output o]) := rfl

@[simp] theorem runIn_printLine (t : Text) (w : World σ) :
    (printLine t).runIn w = (.ok (), w.record [.output (.stdout (t ++ ['\n']))]) := rfl

@[simp] theorem runIn_log (level : Level) (source : LogSource) (t : Text) (w : World σ) :
    (log level source t).runIn w = (.ok (), w.record [.output (.log ⟨level, source, t⟩)]) := rfl

@[simp] theorem runIn_paint (style : Style) (word : Text) (w : World σ) :
    (paint style word).runIn w = (.ok (WorkspaceRelease.paint w.painted style word), w) := rfl

theorem runIn_readText (p : Path) (onError : FileError → ReleaseError) (w : World σ) :
    (readText p onError).runIn w =
      ((w.files.readText w.cwd p).mapError onError, w.record [.read p]) := by
  unfold readText
  rw [runIn_bind_ok (runIn_get w), runIn_bind_ok (runIn_set _ w)]
  cases w.files.readText w.cwd p <;> rfl

theorem runIn_writeText (p : Path) (t : Text) (onError : FileError → ReleaseError) (w : World σ) :
    (writeText p t onError).runIn w =
      match w.files.writeText w.cwd p t with
      | .ok files => (.ok (), { w with files }.record [.write p])
      | .error e => (.error (onError e), w) := by
  unfold writeText
  rw [runIn_bind_ok (runIn_get w)]
  cases w.files.writeText w.cwd p t <;> rfl

theorem runIn_execute (executor : Executor σ) (i : Invocation) (w : World σ) :
    (execute executor i).runIn w =
      ((executor i w.state w.files).result,
        { w with
          state := (executor i w.state w.files).state
          files := (executor i w.state w.files).files }.record
            (.call i :: (executor i w.state w.files).output.map .output)) := by
  unfold execute
  rw [runIn_bind_ok (runIn_get w), runIn_bind_ok (runIn_set _ w)]
  cases (executor i w.state w.files).result <;> rfl

theorem runIn_logAll (rs : List LogRecord) (w : World σ) :
    (rs.forM fun r => emit (.log r)).runIn w = (.ok (), w.record (rs.map fun r => .output (.log r))) := by
  induction rs generalizing w with
  | nil => simp [World.record]
  | cons r rs ih =>
    change (emit (.log r) >>= fun _ => rs.forM fun r => emit (.log r)).runIn w = _
    rw [runIn_bind_ok (runIn_emit _ _), ih]
    simp [World.record]

end ReleaseM

namespace World

/-- A world at the top of its files, in which nothing has happened yet. -/
def fresh (files : FileTree) : World Unit := { files, cwd := [], state := (), painted := false, trace := [] }

@[simp] theorem record_files (w : World σ) (es : List Event) : (w.record es).files = w.files := rfl

@[simp] theorem record_cwd (w : World σ) (es : List Event) : (w.record es).cwd = w.cwd := rfl

@[simp] theorem record_state (w : World σ) (es : List Event) : (w.record es).state = w.state := rfl

@[simp] theorem record_painted (w : World σ) (es : List Event) : (w.record es).painted = w.painted := rfl

@[simp] theorem record_trace (w : World σ) (es : List Event) :
    (w.record es).trace = w.trace ++ es := rfl

@[simp] theorem record_record (w : World σ) (es fs : List Event) :
    (w.record es).record fs = w.record (es ++ fs) := by
  simp [record]

end World

namespace Event

def isWrite : Event → Bool
  | .write _ => true
  | _ => false

def call? : Event → Option Invocation
  | .call i => some i
  | _ => none

def printed? : Event → Option Text
  | .output (.stdout t) => some t
  | _ => none

def onFile : Event → Bool
  | .read _ | .write _ => true
  | _ => false

/-- Whether an event is a log record or a read file. -/
def isQuiet : Event → Bool
  | .read _ | .output (.log _) => true
  | _ => false

end Event

def commandsIn (es : List Event) : List Invocation := es.filterMap Event.call?

def printedIn (es : List Event) : List Text := es.filterMap Event.printed?

def filesIn (es : List Event) : List Event := es.filter Event.onFile

@[simp] theorem commandsIn_append (es fs : List Event) :
    commandsIn (es ++ fs) = commandsIn es ++ commandsIn fs := List.filterMap_append

@[simp] theorem printedIn_append (es fs : List Event) :
    printedIn (es ++ fs) = printedIn es ++ printedIn fs := List.filterMap_append

@[simp] theorem filesIn_append (es fs : List Event) : filesIn (es ++ fs) = filesIn es ++ filesIn fs :=
  List.filter_append ..

theorem filesIn_logs (rs : List LogRecord) : filesIn (rs.map fun r => .output (.log r)) = [] :=
  List.filter_eq_nil_iff.mpr (List.forall_mem_map.mpr fun _ _ => by simp [Event.onFile])

theorem commandsIn_eq_nil {es : List Event} : commandsIn es = [] ↔ ∀ e ∈ es, e.call? = none := by
  simp [commandsIn, List.filterMap_eq_nil_iff]

theorem printedIn_quiet {es : List Event} (h : ∀ e ∈ es, e.isQuiet) : printedIn es = [] := by
  rw [printedIn, List.filterMap_eq_nil_iff]
  intro e he
  match e, h e he with
  | .read _, _ => rfl
  | .output (.log _), _ => rfl

theorem commandsIn_quiet {es : List Event} (h : ∀ e ∈ es, e.isQuiet) : commandsIn es = [] := by
  rw [commandsIn_eq_nil]
  intro e he
  match e, h e he with
  | .read _, _ => rfl
  | .output (.log _), _ => rfl

/-- Events that execute nothing, and write nothing where they are those of a dry run, with the lines they
print. -/
structure Reports (dryRun : Bool) (lines : List Text) (es : List Event) : Prop where
  noCall : ∀ e ∈ es, e.call? = none
  noWrite : dryRun = true → ∀ e ∈ es, e.isWrite = false
  printed : printedIn es = lines

namespace Reports

variable {dryRun : Bool}

theorem nil : Reports dryRun [] [] := ⟨by simp, by simp, rfl⟩

theorem append {ls ms : List Text} {es fs : List Event} (he : Reports dryRun ls es)
    (hf : Reports dryRun ms fs) : Reports dryRun (ls ++ ms) (es ++ fs) where
  noCall := List.forall_mem_append.mpr ⟨he.noCall, hf.noCall⟩
  noWrite h := List.forall_mem_append.mpr ⟨he.noWrite h, hf.noWrite h⟩
  printed := by rw [printedIn_append, he.printed, hf.printed]

theorem quiet {es : List Event} (h : ∀ e ∈ es, e.isQuiet) : Reports dryRun [] es where
  noCall := commandsIn_eq_nil.mp (commandsIn_quiet h)
  noWrite _ e he := by
    match e, h e he with
    | .read _, _ => rfl
    | .output (.log _), _ => rfl
  printed := printedIn_quiet h

theorem log (r : LogRecord) : Reports dryRun [] [.output (.log r)] := quiet (by simp [Event.isQuiet])

theorem logs (rs : List LogRecord) : Reports dryRun [] (rs.map fun r => .output (.log r)) :=
  quiet (by simp [Event.isQuiet])

theorem read (p : Path) : Reports dryRun [] [.read p] := quiet (by simp [Event.isQuiet])

theorem write (p : Path) : Reports false [] [.write p] :=
  ⟨by simp [Event.call?], by simp, by simp [printedIn, Event.printed?]⟩

theorem line (t : Text) : Reports dryRun [t] [.output (.stdout t)] :=
  ⟨by simp [Event.call?], by simp [Event.isWrite], by simp [printedIn, Event.printed?]⟩

end Reports

/-- Events that read one file, and write it afterwards or write nothing. -/
def Handles (p : Path) (es : List Event) : Prop := filesIn es = [.read p] ∨ filesIn es = [.read p, .write p]

namespace Handles

variable {p : Path} {es fs : List Event}

theorem read (p : Path) : Handles p [.read p] := .inl rfl

theorem append (h : Handles p es) (hf : filesIn fs = []) : Handles p (es ++ fs) := by
  unfold Handles
  rwa [filesIn_append, hf, List.append_nil]

theorem append_left (he : filesIn es = []) (h : Handles p fs) : Handles p (es ++ fs) := by
  unfold Handles
  rwa [filesIn_append, he, List.nil_append]

end Handles

end WorkspaceRelease

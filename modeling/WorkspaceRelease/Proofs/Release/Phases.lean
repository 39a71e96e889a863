import WorkspaceRelease.Executor
import WorkspaceRelease.Proofs.Release.Stages
import WorkspaceRelease.Proofs.Stamping.Files

/-!
The order of effects in a release: the data files come first, then the stamp, then the commands.
What fails on the way keeps everything behind it from happening.
-/

namespace WorkspaceRelease

variable {σ : Type}

def Idle (es : List Event) : Prop := (∀ e ∈ es, e.isWrite = false) ∧ commandsIn es = []

theorem Reports.idle {lines : List Text} {es : List Event} (h : Reports true lines es) : Idle es :=
  ⟨h.noWrite rfl, commandsIn_eq_nil.mpr h.noCall⟩

/-- What holds of the result of a release from a world and of the events that it adds. -/
structure Phases (c : Config) (w : World σ) (result : Except ReleaseError Unit) (events : List Event) :
    Prop where
  readsFirst : ∀ before e after, events = before ++ e :: after → e.isWrite = true ∨ e.call? ≠ none →
    .read (c.workspace.join versionFile) ∈ before ∧ .read (c.workspace.join publishOrderFile) ∈ before
  writesBeforeCalls : ∀ before i after, events = before ++ .call i :: after →
    ∀ e ∈ after, e.isWrite = false
  versionUnread : ∀ cause, w.files.readText w.cwd (c.workspace.join versionFile) = .error cause →
    result = .error (.configRead (c.workspace.join versionFile) cause) ∧ Idle events
  versionBlank : ∀ t, w.files.readText w.cwd (c.workspace.join versionFile) = .ok t → t.trim = [] →
    result = .error (.emptyVersion (c.workspace.join versionFile)) ∧ Idle events
  orderUnread : ∀ t cause, w.files.readText w.cwd (c.workspace.join versionFile) = .ok t → t.trim ≠ [] →
    w.files.readText w.cwd (c.workspace.join publishOrderFile) = .error cause →
    result = .error (.configRead (c.workspace.join publishOrderFile) cause) ∧ Idle events
  rootInvalid : ∀ data e, dataOf w.files w.cwd c.workspace = .ok data → c.setVersion = true →
    ((listMemberManifests c.workspace).runIn w).1 = .error e → result = .error e ∧ commandsIn events = []
  memberFails : ∀ data done m rest n w' e, dataOf w.files w.cwd c.workspace = .ok data →
    c.setVersion = true → ((listMemberManifests c.workspace).runIn w).1 = .ok (done ++ m :: rest) →
    (stampMembers c data.1 done).runIn w = (.ok n, w') →
    ((stampMember c data.1 m).runIn w').1 = .error e → result = .error e ∧ commandsIn events = []
  inactive : ∀ data, dataOf w.files w.cwd c.workspace = .ok data → c.hasAction = false →
    result = .ok () ∧ Idle events
  callsPrefix : ∀ data, dataOf w.files w.cwd c.workspace = .ok data →
    commandsIn events <+: c.commands data.1 data.2
  calls : commandsIn events ≠ [] → c.dryRun = false ∧
    ∃ data, dataOf w.files w.cwd c.workspace = .ok data ∧
      (c.setVersion = true → ((setVersions c data.1).runIn w).1 = .ok ())
  callsComplete : ∀ data, dataOf w.files w.cwd c.workspace = .ok data → result = .ok () →
    c.dryRun = false → commandsIn events = c.commands data.1 data.2

structure Course (c : Config) (w : World σ) (version : Text) (order : List Text)
    (result : Except ReleaseError Unit) (opening stamping dispatching : List Event) : Prop where
  opens : Idle opening
  readsVersion : .read (c.workspace.join versionFile) ∈ opening
  readsOrder : .read (c.workspace.join publishOrderFile) ∈ opening
  stampsOnly : commandsIn stamping = []
  dispatchesOnly : ∀ e ∈ dispatching, e.isWrite = false
  inactive : c.hasAction = false → result = .ok () ∧ stamping = []
  failed : ∀ e, (stampOutcome c version w.cwd w.files).1 = .error e →
    result = .error e ∧ commandsIn dispatching = []
  issued : commandsIn dispatching <+:
    if c.dryRun then [] else c.commands version order
  complete : result = .ok () → commandsIn dispatching =
    if c.dryRun then [] else c.commands version order

theorem release_course (c : Config) (executor : Executor σ) {w : World σ} {version : Text}
    {order : List Text} (h : dataOf w.files w.cwd c.workspace = .ok (version, order)) :
    ∃ opening stamping dispatching,
      ((release c executor).runIn w).2.trace = w.trace ++ (opening ++ stamping ++ dispatching) ∧
      Course c w version order ((release c executor).runIn w).1 opening stamping dispatching := by
  cases hact : c.hasAction with
  | false =>
    have hset : c.setVersion = false := by simp_all [Config.hasAction]
    have hcommands : c.commands version order = [] := by
      simp_all [Config.hasAction, Config.commands]
    obtain ⟨opening, hopening, hrun⟩ := runIn_release_idle executor h hact
    rw [hrun]
    refine ⟨opening, [], [.output (.stdout idleLine)], by simp, hopening.reports.idle, hopening.readsVersion,
      hopening.readsOrder, rfl, ?_, ?_, ?_, ?_, ?_⟩
    · simp [Event.isWrite]
    · exact fun _ => ⟨rfl, rfl⟩
    · intro e he
      simp [stampOutcome, hset] at he
    · exact List.nil_prefix
    · intro _
      rw [hcommands, ite_self]
      rfl
  | true =>
    obtain ⟨opening, stamping, hopening, hstamping, hrun⟩ := runIn_release_active executor h hact
    have hcalls : commandsIn stamping = [] := commandsIn_eq_nil.mpr hstamping.noCall
    rw [hrun]
    cases hout : (stampOutcome c version w.cwd w.files).1 with
    | error e =>
      refine ⟨opening, stamping, [], by simp, hopening.reports.idle, hopening.readsVersion, hopening.readsOrder,
        hcalls, by simp, by simp [hact], ?_, List.nil_prefix, ?_⟩
      · intro e' he'
        exact ⟨hout.symm.trans he', rfl⟩
      · intro hok
        cases hok
    | ok u =>
      obtain ⟨dispatching, htrace, hwrites, hpre, hall⟩ := issues_commandStage c executor version order
        ({ w with files := (stampOutcome c version w.cwd w.files).2 }.record (opening ++ stamping))
      refine ⟨opening, stamping, dispatching, ?_, hopening.reports.idle, hopening.readsVersion,
        hopening.readsOrder, hcalls, hwrites, by simp [hact], ?_, hpre, fun hok => hall () hok⟩
      · refine htrace.trans ?_
        simp
      · intro e he
        rw [hout] at he
        cases he

theorem split_at_first {α : Type} {p : α → Prop} {xs ys before after : List α} {x : α}
    (h : xs ++ ys = before ++ x :: after) (hx : p x) (hxs : ∀ y ∈ xs, ¬p y) :
    ∃ between, before = xs ++ between ∧ ys = between ++ x :: after := by
  obtain ⟨between, hbefore, hys⟩ | ⟨rest, hxs', hrest⟩ := List.append_eq_append_iff.mp h
  · exact ⟨between, hbefore, hys⟩
  · cases rest with
    | nil =>
      refine ⟨[], ?_, hrest.symm⟩
      rw [List.append_nil, hxs', List.append_nil]
    | cons y rest =>
      obtain ⟨rfl, -⟩ := List.cons_eq_cons.mp hrest
      exact absurd hx (hxs x (by simp [hxs']))

theorem stampFiles_error {version lead : Text} {dryRun : Bool} {cwd : Location} {files files' : FileTree}
    {done : List Path} (rest : List Path) {m : Path} {n : Nat} {e : ReleaseError}
    (h : stampFiles version lead dryRun cwd files done = (.ok n, files'))
    (hm : (stampFile version lead dryRun cwd files' m).1 = .error e) :
    (stampFiles version lead dryRun cwd files (done ++ m :: rest)).1 = .error e := by
  induction done generalizing files n with
  | nil =>
    simp only [stampFiles, Prod.mk.injEq] at h
    obtain ⟨-, rfl⟩ := h
    rw [List.nil_append, stampFiles_cons_error rest (Prod.ext hm rfl)]
  | cons p ps ih =>
    rcases hp : stampFile version lead dryRun cwd files p with ⟨_ | changed, after⟩
    · simp [stampFiles_cons_error ps hp] at h
    · rw [stampFiles_cons_ok ps hp] at h
      obtain ⟨hcount, hafter⟩ := Prod.mk.inj h
      cases hps : (stampFiles version lead dryRun cwd after ps).1 with
      | error e' => simp [hps, Except.map] at hcount
      | ok count =>
        have hrest := ih (Prod.ext hps hafter)
        rw [List.cons_append, stampFiles_cons_ok _ hp, hrest]
        rfl

section Stamp

variable {c : Config} {version : Text} {w : World σ} {e : ReleaseError}

theorem stampOutcome_of_invalid (hset : c.setVersion = true)
    (h : ((listMemberManifests c.workspace).runIn w).1 = .error e) :
    (stampOutcome c version w.cwd w.files).1 = .error e := by
  obtain ⟨logs, -, hmembers⟩ := runIn_listMemberManifests c.workspace w
  simp only [hmembers] at h
  simp only [stampOutcome, hset, ↓reduceIte, stampWorkspace]
  rw [h]

/-- The member that fails is met in the world that the members before it left. -/
theorem stampOutcome_of_failing {done rest : List Path} {m : Path} {n : Nat} {w' : World σ}
    (hset : c.setVersion = true)
    (h : ((listMemberManifests c.workspace).runIn w).1 = .ok (done ++ m :: rest))
    (hdone : (stampMembers c version done).runIn w = (.ok n, w'))
    (hm : ((stampMember c version m).runIn w').1 = .error e) :
    (stampOutcome c version w.cwd w.files).1 = .error e := by
  obtain ⟨logs, -, hmembers⟩ := runIn_listMemberManifests c.workspace w
  obtain ⟨_, -, hstamped⟩ := runIn_stampMembers c version done w
  simp only [hmembers] at h
  rw [hdone] at hstamped
  obtain ⟨hn, rfl⟩ := Prod.mk.inj hstamped
  obtain ⟨_, -, -, hmember⟩ := runIn_stampMember c version m _
  rw [hmember] at hm
  have hfiles := stampFiles_error rest (Prod.ext hn.symm rfl) hm
  simp only [stampOutcome, hset, ↓reduceIte, stampWorkspace]
  rw [h]
  simp only [hfiles, Except.map]

theorem setVersions_of_stampOutcome (hset : c.setVersion = true)
    (h : (stampOutcome c version w.cwd w.files).1 = .ok ()) : ((setVersions c version).runIn w).1 = .ok () := by
  obtain ⟨_, -, hrun⟩ := runIn_setVersions c version w
  rw [hrun]
  simpa only [stampOutcome, hset, ↓reduceIte] using h

end Stamp

theorem phases_unloaded {c : Config} {w : World σ} {e : ReleaseError} {events : List Event}
    (h : dataOf w.files w.cwd c.workspace = .error e) (hidle : Idle events) :
    Phases c w (.error e) events := by
  have hdata : ∀ data, dataOf w.files w.cwd c.workspace ≠ .ok data := fun data hd => by simp [h] at hd
  constructor
  case readsFirst =>
    rintro before e after rfl (hwrite | hcall)
    · simp [hidle.1 e (by simp)] at hwrite
    · exact absurd (commandsIn_eq_nil.mp hidle.2 e (by simp)) hcall
  case writesBeforeCalls =>
    rintro before i after rfl e he
    exact hidle.1 e (by simp [he])
  case versionUnread =>
    intro cause hread
    have hv : versionOf w.files w.cwd c.workspace = .error (.configRead (c.workspace.join versionFile) cause) := by
      simp only [versionOf, hread]
    obtain rfl : _ = e := by simpa only [dataOf, hv, bind, Except.bind, Except.error.injEq] using h
    exact ⟨rfl, hidle⟩
  case versionBlank =>
    intro t hread ht
    obtain rfl : _ = e := by
      simpa only [dataOf, versionOf_eq_blank hread ht, bind, Except.bind, Except.error.injEq] using h
    exact ⟨rfl, hidle⟩
  case orderUnread =>
    intro t cause hread ht horder
    have ho : publishOrderOf w.files w.cwd c.workspace =
        .error (.configRead (c.workspace.join publishOrderFile) cause) := by
      simp only [publishOrderOf, horder]
    obtain rfl : _ = e := by
      simpa only [dataOf, versionOf_eq_ok hread ht, ho, bind, Except.bind, Except.error.injEq] using h
    exact ⟨rfl, hidle⟩
  case calls => exact fun hcalls => absurd hidle.2 hcalls
  all_goals exact fun data => (by intros; exact absurd ‹_› (hdata data))

theorem Course.phases {c : Config} {w : World σ} {version : Text} {order : List Text}
    {result : Except ReleaseError Unit} {opening stamping dispatching : List Event}
    (h : Course c w version order result opening stamping dispatching)
    (hdata : dataOf w.files w.cwd c.workspace = .ok (version, order)) :
    Phases c w result (opening ++ stamping ++ dispatching) := by
  obtain ⟨hv, ho⟩ := dataOf_eq_ok.mp hdata
  have hcommands : commandsIn (opening ++ stamping ++ dispatching) = commandsIn dispatching := by
    rw [commandsIn_append, commandsIn_append, h.opens.2, h.stampsOnly, List.nil_append, List.nil_append]
  have hthis : ∀ data, dataOf w.files w.cwd c.workspace = .ok data → data = (version, order) := by
    intro data hd
    rw [hdata] at hd
    exact (Except.ok.inj hd).symm
  constructor
  case readsFirst =>
    intro before e after hsplit he
    rw [List.append_assoc] at hsplit
    obtain ⟨between, rfl, -⟩ := split_at_first (p := fun e => e.isWrite = true ∨ e.call? ≠ none) hsplit he
      (fun e hmem hor => by
        rcases hor with hwrite | hcall
        · simp [h.opens.1 e hmem] at hwrite
        · exact hcall (commandsIn_eq_nil.mp h.opens.2 e hmem))
    exact ⟨by simp [h.readsVersion], by simp [h.readsOrder]⟩
  case writesBeforeCalls =>
    intro before i after hsplit e he
    have hcalls : commandsIn (opening ++ stamping) = [] := by
      rw [commandsIn_append, h.opens.2, h.stampsOnly, List.append_nil]
    obtain ⟨between, -, rfl⟩ := split_at_first (p := fun e => e.call? ≠ none) hsplit (by simp [Event.call?])
      (fun e hmem hcall => hcall (commandsIn_eq_nil.mp hcalls e hmem))
    exact h.dispatchesOnly e (by simp [he])
  case versionUnread =>
    intro cause hread
    simp [versionOf, hread] at hv
  case versionBlank =>
    intro t hread ht
    simp [versionOf_eq_blank hread ht] at hv
  case orderUnread =>
    intro t cause hread ht horder
    simp [publishOrderOf, horder] at ho
  case rootInvalid =>
    intro data e hd hset hlist
    rw [hcommands]
    exact h.failed e (stampOutcome_of_invalid hset hlist)
  case memberFails =>
    intro data done m rest n w' e hd hset hlist hdone hm
    obtain rfl := hthis data hd
    rw [hcommands]
    exact h.failed e (stampOutcome_of_failing hset hlist hdone hm)
  case inactive =>
    intro data hd hact
    obtain ⟨hresult, rfl⟩ := h.inactive hact
    have hnone : c.commands version order = [] := by simp_all [Config.hasAction, Config.commands]
    have hissued := h.issued
    rw [hnone, ite_self] at hissued
    refine ⟨hresult, ?_, ?_⟩
    · rw [List.append_nil]
      exact List.forall_mem_append.mpr ⟨h.opens.1, h.dispatchesOnly⟩
    · rw [hcommands]
      exact List.prefix_nil.mp hissued
  case callsPrefix =>
    intro data hd
    obtain rfl := hthis data hd
    rw [hcommands]
    have hissued := h.issued
    split at hissued
    · rw [List.prefix_nil.mp hissued]
      exact List.nil_prefix
    · exact hissued
  case calls =>
    rw [hcommands]
    intro hcalls
    have hissued := h.issued
    cases hdry : c.dryRun with
    | true => exact absurd (List.prefix_nil.mp (by simpa [hdry] using hissued)) hcalls
    | false =>
      refine ⟨rfl, (version, order), hdata, fun hset => ?_⟩
      cases hout : (stampOutcome c version w.cwd w.files).1 with
      | ok => exact setVersions_of_stampOutcome hset hout
      | error e => exact absurd (h.failed e hout).2 hcalls
  case callsComplete =>
    intro data hd hok hdry
    obtain rfl := hthis data hd
    rw [hcommands, h.complete hok, hdry]
    rfl

theorem release_phases (c : Config) (executor : Executor σ) (w : World σ) :
    ∃ events, ((release c executor).runIn w).2.trace = w.trace ++ events ∧
      Phases c w ((release c executor).runIn w).1 events := by
  cases hdata : dataOf w.files w.cwd c.workspace with
  | error e =>
    obtain ⟨events, hevents, hrun⟩ := runIn_release_error c executor hdata
    rw [hrun]
    exact ⟨events, rfl, phases_unloaded hdata hevents.idle⟩
  | ok data =>
    obtain ⟨opening, stamping, dispatching, htrace, hcourse⟩ := release_course c executor hdata
    exact ⟨_, htrace, hcourse.phases hdata⟩

/-- A member whose write is refused ends the release before its first command. -/
theorem release_phases_readOnly : ∃ events,
    ((release plainConfig (Executor.scripted [])).runIn readOnlyWorld).2.trace = readOnlyWorld.trace ++ events ∧
      Phases plainConfig readOnlyWorld (.error (.manifestWrite "./b/Cargo.toml".toList .permissionDenied)) events ∧
      commandsIn events = [] := by
  obtain ⟨events, htrace, hphases⟩ := release_phases plainConfig (Executor.scripted []) readOnlyWorld
  have hdata : dataOf readOnlyWorld.files readOnlyWorld.cwd plainConfig.workspace = .ok (['1'], [['a']]) := rfl
  have hfiles : stampFiles ['1'] plainConfig.family plainConfig.dryRun readOnlyWorld.cwd readOnlyWorld.files
      plainMembers = (.ok 1, readOnlyFiles ['1']) := by decide +kernel
  have hrefused : (stampFile ['1'] plainConfig.family plainConfig.dryRun readOnlyWorld.cwd (readOnlyFiles ['1'])
      "./b/Cargo.toml".toList).1 = .error (.manifestWrite "./b/Cargo.toml".toList .permissionDenied) := by
    decide +kernel
  obtain ⟨stamping, -, hdone⟩ := runIn_stampMembers plainConfig ['1'] plainMembers readOnlyWorld
  rw [hfiles] at hdone
  dsimp only at hdone
  obtain ⟨_, -, -, hmember⟩ := runIn_stampMember plainConfig ['1'] "./b/Cargo.toml".toList
    ({ readOnlyWorld with files := readOnlyFiles ['1'] }.record stamping)
  simp only [World.record_files, World.record_cwd, hrefused] at hmember
  obtain ⟨hresult, hcalls⟩ := hphases.memberFails (['1'], [['a']]) plainMembers "./b/Cargo.toml".toList [] 1 _ _ hdata
    rfl listMemberManifests_readOnly hdone (congrArg Prod.fst hmember)
  rw [hresult] at hphases
  exact ⟨events, htrace, hphases, hcalls⟩

end WorkspaceRelease

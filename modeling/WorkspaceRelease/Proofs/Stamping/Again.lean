import WorkspaceRelease.Proofs.Members
import WorkspaceRelease.Proofs.SetVersions

/-!
Setting the same version a second time. The members are found again, also where the manifest that lists
them is one of them, and nothing is written.
-/

namespace WorkspaceRelease

open Toml FileTree

variable {σ : Type}

/-- A stamp leaves the file as it is. -/
def AtVersion (version lead : Text) (files : FileTree) (cwd : Location) (path : Path) : Prop :=
  ∃ t, files.readText cwd path = .ok t ∧ Stamps lead version t t

section Idle

variable {c : Config} {version lead : Text} {w : World σ} {path : Path}

theorem runIn_applyVersion_idle (dryRun : Bool) (h : AtVersion version lead w.files w.cwd path) :
    ∃ n events, (∀ e ∈ events, e.isQuiet) ∧
      (applyVersion path version lead dryRun).runIn w = (.ok ⟨n, false⟩, w.record events) := by
  obtain ⟨t, hread, d, stamped, hdoc, hstamp, htext⟩ := h
  obtain ⟨es, early, -, hearly, -, hrun⟩ := runIn_applyVersion_stamped dryRun hread hdoc hstamp
  have hsame : Manifest.isModified ⟨path, t, stamped⟩ = false := by
    simp [Manifest.isModified, Manifest.render, ← htext]
  rw [hsame] at hrun
  cases dryRun with
  | true =>
    refine ⟨Stamp.familyCount lead es,
      early ++ [.output (.log ⟨.debug, .package, "Dry run, not writing ".toList ++ path⟩)], ?_, ?_⟩
    · exact List.forall_mem_append.mpr ⟨hearly, by simp [Event.isQuiet]⟩
    · rw [hrun]
      simp only [concludeStamp, ↓reduceIte, ReleaseM.runIn_bind, ReleaseM.runIn_log, ReleaseM.runIn_pure,
        World.record_record]
  | false =>
    refine ⟨Stamp.familyCount lead es, early, hearly, ?_⟩
    rw [hrun]
    simp [concludeStamp]

theorem runIn_stampMember_idle (h : AtVersion version c.family w.files w.cwd path) :
    ∃ events, Reports true [settingLine w.painted c version path] events ∧
      (stampMember c version path).runIn w = (.ok false, w.record events) := by
  let line : List Event := [.output (.stdout (settingLine w.painted c version path))]
  obtain ⟨n, events, hevents, hrun⟩ := runIn_applyVersion_idle (w := w.record line) c.dryRun h
  let already : LogRecord := ⟨.debug, .release, path ++ " already at v".toList ++ version⟩
  refine ⟨line ++ (events ++ [.output (.log already)]),
    (Reports.line _).append ((Reports.quiet hevents).append (Reports.log already)), ?_⟩
  have hstart : (stampMember c version path).runIn w =
      (applyVersion path version c.family c.dryRun >>= fun o => do
        if !o.changed then
          ReleaseM.emit (.log already)
        pure o.changed).runIn (w.record line) := by
    simp only [stampMember, ReleaseM.runIn_bind, ReleaseM.runIn_paint, ReleaseM.runIn_printLine]
    rfl
  rw [hstart, ReleaseM.runIn_bind_ok hrun]
  simp only [Bool.not_false, ↓reduceIte, ReleaseM.runIn_bind, ReleaseM.runIn_emit, ReleaseM.runIn_pure,
    World.record_record, List.append_assoc]

theorem runIn_stampMembers_idle {manifests : List Path}
    (h : ∀ m ∈ manifests, AtVersion version c.family w.files w.cwd m) :
    ∃ events, Reports true (manifests.map (settingLine w.painted c version)) events ∧
      (stampMembers c version manifests).runIn w = (.ok 0, w.record events) := by
  induction manifests generalizing w with
  | nil => exact ⟨[], Reports.nil, by simp [stampMembers, World.record]⟩
  | cons m manifests ih =>
    obtain ⟨hm, hrest⟩ := List.forall_mem_cons.mp h
    obtain ⟨events, hevents, hrun⟩ := runIn_stampMember_idle hm
    obtain ⟨more, hmore, hruns⟩ := ih (w := w.record events) hrest
    refine ⟨events ++ more, hevents.append hmore, ?_⟩
    simp only [stampMembers, ReleaseM.runIn_bind, hrun, hruns]
    simp

theorem runIn_setVersions_idle {manifests : List Path} (hreal : c.dryRun = false)
    (hmembers : membersOf w.files w.cwd c.workspace = .ok manifests)
    (h : ∀ m ∈ manifests, AtVersion version c.family w.files w.cwd m) :
    ∃ events, Reports true (manifests.map (settingLine w.painted c version) ++
        [summaryLine w.painted version 0 manifests.length]) events ∧
      (setVersions c version).runIn w = (.ok (), w.record events) := by
  obtain ⟨logs, hlogs, hlist⟩ := runIn_listMemberManifests c.workspace w
  let opening : List Event := .read (c.workspace.join manifestFile) :: logs
  have hopening : Reports true [] opening := (Reports.read _).append (Reports.quiet hlogs)
  obtain ⟨events, hevents, hrun⟩ := runIn_stampMembers_idle (w := w.record opening) h
  let summary : List Event := [.output (.stdout (summaryLine w.painted version 0 manifests.length))]
  refine ⟨opening ++ events ++ summary, (hopening.append hevents).append (Reports.line _), ?_⟩
  simp only [setVersions, ReleaseM.runIn_bind, hlist, hmembers]
  rw [hrun]
  simp only [hreal, Bool.not_false, ↓reduceIte, ReleaseM.runIn_bind, ReleaseM.runIn_paint,
    ReleaseM.runIn_printLine, World.record_record, World.record_painted]
  simp only [summary, summaryLine, List.append_assoc, List.cons_append]

end Idle

/-- Whatever the stamp prints for a member reads back as it was printed. -/
def FaithfulPrints (c : Config) (version : Text) (w : World σ) (manifests : List Path) : Prop :=
  ∀ m ∈ manifests, ∀ t, w.files.readText w.cwd m = .ok t → FaithfulText c.family version t

section First

variable {c : Config} {version : Text} {w : World σ} {manifests : List Path}

theorem atVersion_stampFiles (hcodec : FaithfulPrints c version w manifests)
    (hok : verdict version c.family false w.files w.cwd manifests = .ok ()) :
    ∀ m ∈ manifests, AtVersion version c.family
      (stampFiles version c.family false w.cwd w.files manifests).2 w.cwd m := by
  intro m hm
  have hrun := stampFiles_of_faithfulRepeats (onRepeats_of_forall hcodec)
  obtain ⟨l, hl, t, s, ht, hs, hstamps⟩ := hrun.settles m (by rwa [accepted_of_verdict hok])
  have hfaithful := hcodec m hm t (readText_eq_ok.mpr ⟨l, hl, ht⟩)
  refine ⟨s, ?_, hfaithful.again hstamps⟩
  exact readText_eq_ok.mpr ⟨l, (hrun.rewritten.resolve_eq w.cwd m).trans hl, hs⟩

/-- The manifest that lists the members is either none of them, or it lists the same after the stamp. -/
theorem membersOf_stampFiles (hcodec : FaithfulPrints c version w manifests)
    (hmembers : membersOf w.files w.cwd c.workspace = .ok manifests)
    (hok : verdict version c.family false w.files w.cwd manifests = .ok ()) :
    membersOf (stampFiles version c.family false w.cwd w.files manifests).2 w.cwd c.workspace = .ok manifests := by
  have hrun := stampFiles_of_faithfulRepeats (onRepeats_of_forall hcodec)
  have hresolve := hrun.rewritten.resolve_eq w.cwd (c.workspace.join manifestFile)
  obtain ⟨t, hread, hlisted⟩ := membersOf_eq_ok.mp hmembers
  obtain ⟨l, hl, ht⟩ := readText_eq_ok.mp hread
  by_cases hmember : ∃ m ∈ manifests, w.files.resolve w.cwd m = .ok l
  · obtain ⟨m, hm, hml⟩ := hmember
    obtain ⟨l', hl', t', s, ht', hs, hstamps⟩ := hrun.settles m (by rwa [accepted_of_verdict hok])
    obtain rfl : l = l' := Except.ok.inj (hml.symm.trans hl')
    obtain rfl : t = t' := by simpa [ht] using ht'
    have hfaithful := hcodec m hm t (readText_eq_ok.mpr ⟨l, hml, ht⟩)
    have hagain := membersIn_stamps hfaithful hstamps hlisted
    exact membersOf_eq_ok.mpr ⟨s, readText_eq_ok.mpr ⟨l, hresolve.trans hl, hs⟩, hagain⟩
  · have hsame := hrun.others l (by
      rw [accepted_of_verdict hok]
      exact fun m hm hml => hmember ⟨m, hm, hml⟩)
    have ht' := (hrun.rewritten.textAt_eq hsame).trans ht
    exact membersOf_eq_ok.mpr ⟨t, readText_eq_ok.mpr ⟨l, hresolve.trans hl, ht'⟩, hlisted⟩

theorem workspaceLines_stamped (hreal : c.dryRun = false) (hcodec : FaithfulPrints c version w manifests)
    (hmembers : membersOf w.files w.cwd c.workspace = .ok manifests)
    (hok : verdict version c.family false w.files w.cwd manifests = .ok ()) :
    ∃ changed, workspaceLines w.painted c version w.cwd w.files =
      manifests.map (settingLine w.painted c version) ++
        [summaryLine w.painted version changed manifests.length] := by
  have hrun := stampFiles_of_faithfulRepeats (onRepeats_of_forall hcodec)
  have hcount := hrun.verdict
  rw [hok] at hcount
  cases hn : (stampFiles version c.family false w.cwd w.files manifests).1 with
  | error e => simp [hn, Except.map] at hcount
  | ok n =>
    refine ⟨n, ?_⟩
    simp only [workspaceLines, hmembers, hreal, hrun.reached, tried_eq_take, hn, summaryLines]
    rw [(verdict_eq_ok manifests).mp hok, List.take_of_length_le (Nat.le_succ _)]
    rfl

end First

/-- What a second run does: it goes through the same members and leaves the world as it is, but for what it
reads and prints. -/
structure Repeated (c : Config) (version : Text) (w later : World σ) (manifests : List Path)
    (first second : List Event) : Prop where
  members : ((listMemberManifests c.workspace).runIn later).1 = .ok manifests
  succeeds : (setVersions c version).runIn later = (.ok (), later.record second)
  noWrite : ∀ e ∈ second, e.isWrite = false
  noCall : ∀ e ∈ second, e.call? = none
  before : ∃ changed, printedIn first = manifests.map (settingLine w.painted c version) ++
    [summaryLine w.painted version changed manifests.length]
  lines : printedIn second = manifests.map (settingLine later.painted c version) ++
    [summaryLine later.painted version 0 manifests.length]

theorem setVersions_idempotent {c : Config} {version : Text} {w later : World σ} {manifests : List Path}
    (hreal : c.dryRun = false) (hmembers : ((listMemberManifests c.workspace).runIn w).1 = .ok manifests)
    (hcodec : FaithfulPrints c version w manifests) (hok : ((setVersions c version).runIn w).1 = .ok ())
    (hfiles : later.files = ((setVersions c version).runIn w).2.files) (hcwd : later.cwd = w.cwd) :
    ∃ first second, ((setVersions c version).runIn w).2.trace = w.trace ++ first ∧
      Repeated c version w later manifests first second := by
  obtain ⟨_, -, hlist⟩ := runIn_listMemberManifests c.workspace w
  have hof : membersOf w.files w.cwd c.workspace = .ok manifests := by simpa only [hlist] using hmembers
  obtain ⟨first, hfirst, hrun⟩ := runIn_setVersions c version w
  have hstamp := stampFiles_of_faithfulRepeats (onRepeats_of_forall hcodec)
  have hworkspace : stampWorkspace c version w.cwd w.files =
      (verdict version c.family false w.files w.cwd manifests,
        (stampFiles version c.family false w.cwd w.files manifests).2) := by
    simp only [stampWorkspace, hof, hreal, hstamp.verdict]
  rw [hworkspace] at hrun
  rw [hrun] at hok hfiles ⊢
  have hlater : later.files = (stampFiles version c.family false w.cwd w.files manifests).2 := hfiles
  have hagain : membersOf later.files later.cwd c.workspace = .ok manifests := by
    rw [hlater, hcwd]
    exact membersOf_stampFiles hcodec hof hok
  have hidle : ∀ m ∈ manifests, AtVersion version c.family later.files later.cwd m := by
    rw [hlater, hcwd]
    exact atVersion_stampFiles hcodec hok
  obtain ⟨second, hsecond, hsecondRun⟩ := runIn_setVersions_idle hreal hagain hidle
  obtain ⟨_, -, hlistAgain⟩ := runIn_listMemberManifests c.workspace later
  refine ⟨first, second, rfl, ?_⟩
  exact {
    members := by rw [hlistAgain, hagain]
    succeeds := hsecondRun
    noWrite := hsecond.noWrite rfl
    noCall := hsecond.noCall
    before := by
      obtain ⟨changed, hlines⟩ := workspaceLines_stamped hreal hcodec hof hok
      exact ⟨changed, hfirst.printed.trans hlines⟩
    lines := hsecond.printed }

/-- The manifest of a workspace that is a package of its own and lists itself. -/
def rootedManifest (version : Text) : Text :=
  "[workspace]\nmembers = [\".\"]\n[package]\nversion = \"".toList ++ version ++ "\"\n".toList

def rootedDocument (version : Text) : Document :=
  ⟨[bareHeader 1 "workspace"
      [(bareKey "members" [' '], .array [quotedNode ['.'] [] []] false [] ⟨some [' '], some []⟩)],
    bareHeader 2 "package" [lineEntry "version" version]], []⟩

def rootedWorld : World Unit :=
  .fresh { entries := [(["Cargo.toml".toList], .file (.text (rootedManifest ['0'])))] }

set_option maxRecDepth 10000 in
theorem faithfulText_rootedManifest : FaithfulText "ena".toList ['1'] (rootedManifest ['0']) := by
  have hread : Document.read (rootedManifest ['0']) = .ok (rootedDocument ['0']) := rfl
  have hstamp : Stamp.stampDocument? ['1'] "ena".toList (rootedDocument ['0']) = some (rootedDocument ['1']) := rfl
  have hprint : (rootedDocument ['1']).render = rootedManifest ['1'] := rfl
  have hagain : Document.read (rootedManifest ['1']) = .ok (rootedDocument ['1']) := rfl
  exact .of_read hread hstamp (by rw [hprint, hagain])

theorem setVersions_idempotent_rooted :
    ∃ first second, ((setVersions plainConfig ['1']).runIn rootedWorld).2.trace = rootedWorld.trace ++ first ∧
      Repeated plainConfig ['1'] rootedWorld ((setVersions plainConfig ['1']).runIn rootedWorld).2
        ["././Cargo.toml".toList] first second := by
  have hfaithful : FaithfulPrints plainConfig ['1'] rootedWorld ["././Cargo.toml".toList] := by
    intro m hm t ht
    obtain rfl := List.mem_singleton.mp hm
    have hread : rootedWorld.files.readText rootedWorld.cwd "././Cargo.toml".toList = .ok (rootedManifest ['0']) := rfl
    obtain rfl : rootedManifest ['0'] = t := Except.ok.inj (hread.symm.trans ht)
    exact faithfulText_rootedManifest
  have hok : ((setVersions plainConfig ['1']).runIn rootedWorld).1 = .ok () := eq_ok_of_isOk (by decide +kernel)
  have hcwd : ((setVersions plainConfig ['1']).runIn rootedWorld).2.cwd = rootedWorld.cwd := by
    obtain ⟨_, -, hrun⟩ := runIn_setVersions plainConfig ['1'] rootedWorld
    rw [hrun]
    rfl
  exact setVersions_idempotent rfl rfl hfaithful hok rfl hcwd

end WorkspaceRelease

import WorkspaceRelease.Release
import WorkspaceRelease.Proofs.Effect

/-!
Stamping the members of a workspace, as functions of the tree of files, and the lines that are
printed on the way.
-/

namespace WorkspaceRelease

open Toml

variable {σ : Type}

def membersOf (files : FileTree) (cwd : Location) (workspace : Path) : Except ReleaseError (List Path) :=
  match files.readText cwd (workspace.join manifestFile) with
  | .error cause => .error (.rootManifest (workspace.join manifestFile) (.unreadable cause))
  | .ok t => (membersIn workspace t).mapError (.rootManifest (workspace.join manifestFile))

/-- A document with the version stamped in, if it describes a package. -/
def Stamp.stampDocument? (version lead : Text) (d : Document) : Option Document :=
  (Stamp.stampPackage? version d.entries).map fun es =>
    { d with entries := Stamp.stampFamily lead version es }

theorem Stamp.stampDocument?_eq_some {version lead : Text} {d stamped : Document} :
    stampDocument? version lead d = some stamped ↔ ∃ form inner,
      Entries.find? "package".toList d.entries = some (.table form inner) ∧
      stamped = ⟨stampFamily lead version
        (Entries.replace "package".toList (.table form (setVersion version inner)) d.entries), d.trailing⟩ := by
  simp only [stampDocument?, stampPackage?, Option.bind_eq_bind, Option.map_eq_some_iff, Option.bind_eq_some_iff]
  constructor
  · rintro ⟨es, ⟨n, hn, hes⟩, rfl⟩
    cases n with
    | table form inner =>
      obtain rfl := Option.some.inj hes
      exact ⟨form, inner, hn, rfl⟩
    | scalar | array | tables => exact nomatch hes
  · rintro ⟨form, inner, hn, rfl⟩
    exact ⟨_, ⟨_, hn, rfl⟩, rfl⟩

def stampedText (version lead : Text) (path : Path) (t : Text) : Except ReleaseError Text :=
  match Document.read t with
  | .error fault => .error (.manifestParse path fault)
  | .ok d =>
    match Stamp.stampDocument? version lead d with
    | none => .error (.noPackage path)
    | some stamped => .ok stamped.render

/-- What stamping would make of the file at a path. -/
def stampedFile (version lead : Text) (dryRun : Bool) (files : FileTree) (cwd : Location) (path : Path) :
    Except ReleaseError Text :=
  match files.readText cwd path with
  | .error cause => .error (.manifestRead path cause)
  | .ok t =>
    match stampedText version lead path t with
    | .error e => .error e
    | .ok stamped =>
      if stamped = t then .ok stamped
      else if dryRun then .ok stamped
      else
        match files.writeText cwd path stamped with
        | .ok _ => .ok stamped
        | .error cause => .error (.manifestWrite path cause)

def stampFile (version lead : Text) (dryRun : Bool) (cwd : Location) (files : FileTree) (path : Path) :
    Except ReleaseError Bool × FileTree :=
  match files.readText cwd path with
  | .error cause => (.error (.manifestRead path cause), files)
  | .ok t =>
    match stampedText version lead path t with
    | .error e => (.error e, files)
    | .ok stamped =>
      if stamped = t then (.ok false, files)
      else if dryRun then (.ok true, files)
      else
        match files.writeText cwd path stamped with
        | .ok files => (.ok true, files)
        | .error cause => (.error (.manifestWrite path cause), files)

def stampFiles (version lead : Text) (dryRun : Bool) (cwd : Location) (files : FileTree) :
    List Path → Except ReleaseError Nat × FileTree
  | [] => (.ok 0, files)
  | path :: paths =>
    match stampFile version lead dryRun cwd files path with
    | (.error e, files) => (.error e, files)
    | (.ok changed, files) =>
      match stampFiles version lead dryRun cwd files paths with
      | (.error e, files) => (.error e, files)
      | (.ok count, files) => (.ok (if changed then count + 1 else count), files)

section

variable {version lead : Text} {dryRun : Bool} {cwd : Location} {files after : FileTree} {path : Path}

theorem stampFiles_cons_error (paths : List Path) {e : ReleaseError}
    (h : stampFile version lead dryRun cwd files path = (.error e, after)) :
    stampFiles version lead dryRun cwd files (path :: paths) = (.error e, after) := by
  simp only [stampFiles, h]

theorem stampFiles_cons_ok (paths : List Path) {changed : Bool}
    (h : stampFile version lead dryRun cwd files path = (.ok changed, after)) :
    stampFiles version lead dryRun cwd files (path :: paths) =
      ((stampFiles version lead dryRun cwd after paths).1.map
          fun count => if changed then count + 1 else count,
        (stampFiles version lead dryRun cwd after paths).2) := by
  simp only [stampFiles, h]
  rcases stampFiles version lead dryRun cwd after paths with ⟨_ | _, _⟩ <;> rfl

end

def reached (version lead : Text) (dryRun : Bool) (cwd : Location) (files : FileTree) :
    List Path → List Path
  | [] => []
  | path :: paths =>
    path ::
      match stampFile version lead dryRun cwd files path with
      | (.error _, _) => []
      | (.ok _, files) => reached version lead dryRun cwd files paths

def settingLine (painted : Bool) (c : Config) (version : Text) (manifest : Path) : Text :=
  paint painted .greenBold "setting version".toList ++ " v".toList ++ version ++ " for ".toList ++
    manifest.relative c.workspace ++ ['\n']

def summaryLine (painted : Bool) (version : Text) (changed total : Nat) : Text :=
  paint painted .greenBold "✓ Updated".toList ++ ' ' :: Text.ofNat changed ++ " of ".toList ++
    Text.ofNat total ++ " manifests to v".toList ++ version ++ ['\n']

theorem runIn_listMemberManifests (workspace : Path) (w : World σ) :
    ∃ logs : List Event, (∀ e ∈ logs, e.isQuiet) ∧
      (listMemberManifests workspace).runIn w =
        (membersOf w.files w.cwd workspace,
          w.record (.read (workspace.join manifestFile) :: logs)) := by
  simp only [listMemberManifests, ReleaseM.runIn_bind, ReleaseM.runIn_readText, membersOf]
  cases w.files.readText w.cwd (workspace.join manifestFile) with
  | error cause => exact ⟨[], by simp, rfl⟩
  | ok t =>
    simp only [mapError_ok]
    cases membersIn workspace t with
    | error fault => exact ⟨[], by simp, rfl⟩
    | ok manifests =>
      refine ⟨[.output (.log ⟨.debug, .workspace, "Found ".toList ++ Text.ofNat manifests.length ++
        " workspace members in ".toList ++ workspace.join manifestFile⟩)], by simp [Event.isQuiet], ?_⟩
      simp only [ReleaseM.runIn_bind, ReleaseM.runIn_log, ReleaseM.runIn_pure, World.record_record]
      rfl

theorem runIn_load (path : Path) (w : World σ) :
    (Manifest.load path).runIn w =
      (match w.files.readText w.cwd path with
        | .error cause => .error (.manifestRead path cause)
        | .ok loaded =>
          match Document.read loaded with
          | .ok document => .ok { path, loaded, document }
          | .error fault => .error (.manifestParse path fault),
        w.record [.read path]) := by
  simp only [Manifest.load, ReleaseM.runIn_bind, ReleaseM.runIn_readText]
  cases w.files.readText w.cwd path with
  | error cause => rfl
  | ok t =>
    simp only [mapError_ok]
    cases Document.read t <;> rfl

theorem setPackageVersion?_eq (version : Text) (m : Manifest) :
    m.setPackageVersion? version =
      (Stamp.stampPackage? version m.document.entries).map m.withEntries := rfl

def concludeStamp (m : Manifest) (o : StampOutcome) (dryRun : Bool) : ReleaseM σ StampOutcome := do
  if dryRun then
    ReleaseM.log .debug .package ("Dry run, not writing ".toList ++ m.path)
  else if o.changed then
    m.save
  pure o

theorem runIn_concludeStamp (m : Manifest) (n : Nat) (dryRun : Bool) (w : World σ) :
    ∃ events, Reports dryRun [] events ∧ (filesIn events = [] ∨ filesIn events = [.write m.path]) ∧
      (concludeStamp m ⟨n, m.isModified⟩ dryRun).runIn w =
        if m.render = m.loaded then (.ok ⟨n, false⟩, w.record events)
        else if dryRun then (.ok ⟨n, true⟩, w.record events)
        else
          match w.files.writeText w.cwd m.path m.render with
          | .ok files => (.ok ⟨n, true⟩, { w with files }.record events)
          | .error cause => (.error (.manifestWrite m.path cause), w.record events) := by
  cases dryRun with
  | true =>
    refine ⟨[_], Reports.log ⟨.debug, .package, "Dry run, not writing ".toList ++ m.path⟩, .inl rfl, ?_⟩
    by_cases hsame : m.render = m.loaded
    · simp only [concludeStamp, Manifest.isModified, hsame, bne_self_eq_false, ↓reduceIte,
        ReleaseM.runIn_bind, ReleaseM.runIn_log, ReleaseM.runIn_pure]
    · simp only [concludeStamp, Manifest.isModified, bne_iff_ne.mpr hsame, hsame, ↓reduceIte,
        ReleaseM.runIn_bind, ReleaseM.runIn_log, ReleaseM.runIn_pure]
  | false =>
    by_cases hsame : m.render = m.loaded
    · exact ⟨[], Reports.nil, .inl rfl,
        by simp [concludeStamp, Manifest.isModified, hsame, World.record]⟩
    · simp only [concludeStamp, Manifest.isModified, bne_iff_ne.mpr hsame, hsame, Bool.false_eq_true,
        ↓reduceIte, ReleaseM.runIn_bind, Manifest.save, ReleaseM.runIn_writeText]
      cases w.files.writeText w.cwd m.path m.render with
      | ok files => exact ⟨_, Reports.write m.path, .inr rfl, rfl⟩
      | error cause => exact ⟨[], Reports.nil, .inl rfl, by simp [World.record]⟩

/-- A manifest that can be stamped is read, stamped, and then settled in its file. -/
theorem runIn_applyVersion_stamped {path : Path} {version lead t : Text} {d stamped : Document}
    (dryRun : Bool) {w : World σ} (hread : w.files.readText w.cwd path = .ok t)
    (hdoc : Document.read t = .ok d) (hstamp : Stamp.stampDocument? version lead d = some stamped) :
    ∃ es early, Stamp.stampPackage? version d.entries = some es ∧ (∀ e ∈ early, e.isQuiet) ∧
      filesIn early = [.read path] ∧ (applyVersion path version lead dryRun).runIn w =
        (concludeStamp ⟨path, t, stamped⟩
          ⟨Stamp.familyCount lead es, Manifest.isModified ⟨path, t, stamped⟩⟩ dryRun).runIn (w.record early) := by
  simp only [Stamp.stampDocument?, Option.map_eq_some_iff] at hstamp
  obtain ⟨es, hes, rfl⟩ := hstamp
  let found : Manifest := ⟨path, t, { d with entries := es }⟩
  let m : Manifest := ⟨path, t, { d with entries := Stamp.stampFamily lead version es }⟩
  let o : StampOutcome := ⟨found.familyCount lead, m.isModified⟩
  refine ⟨es, ([.read path] ++ (found.familyRecords lead).map fun r => .output (.log r)) ++
    [.output (.log ⟨.debug, .package, stampedRecord path o⟩)], hes, ?_, ?_, ?_⟩
  · simp only [List.forall_mem_append, List.forall_mem_map, List.forall_mem_singleton]
    exact ⟨⟨rfl, fun _ _ => rfl⟩, rfl⟩
  · rw [filesIn_append, filesIn_append, filesIn_logs]
    rfl
  · simp only [applyVersion, ReleaseM.runIn_bind, runIn_load, hread, hdoc, Manifest.stampPackage,
      setPackageVersion?_eq, hes, Option.map_some, ReleaseM.runIn_pure, Manifest.stampFamily,
      ReleaseM.runIn_logAll, ReleaseM.runIn_log, World.record_record]
    rfl

theorem runIn_applyVersion (path : Path) (version lead : Text) (dryRun : Bool) (w : World σ) :
    ∃ events, Reports dryRun [] events ∧ Handles path events ∧
      ((applyVersion path version lead dryRun).runIn w).1.map StampOutcome.changed =
        (stampFile version lead dryRun w.cwd w.files path).1 ∧
      ((applyVersion path version lead dryRun).runIn w).2 =
        { w with files := (stampFile version lead dryRun w.cwd w.files path).2 }.record events := by
  cases hread : w.files.readText w.cwd path with
  | error cause =>
    simp only [applyVersion, ReleaseM.runIn_bind, runIn_load, stampFile, hread]
    exact ⟨_, Reports.read path, Handles.read path, rfl, rfl⟩
  | ok t =>
    cases hdoc : Document.read t with
    | error fault =>
      simp only [applyVersion, ReleaseM.runIn_bind, runIn_load, stampFile, stampedText, hread, hdoc]
      exact ⟨_, Reports.read path, Handles.read path, rfl, rfl⟩
    | ok d =>
      cases hstamp : Stamp.stampDocument? version lead d with
      | none =>
        have hnone : Stamp.stampPackage? version d.entries = none := Option.map_eq_none_iff.mp hstamp
        simp only [applyVersion, ReleaseM.runIn_bind, runIn_load, stampFile, stampedText, hread, hdoc, hstamp,
          Manifest.stampPackage, setPackageVersion?_eq, hnone]
        exact ⟨_, Reports.read path, Handles.read path, rfl, rfl⟩
      | some stamped =>
        obtain ⟨es, early, -, hearly, hfile, hrun⟩ := runIn_applyVersion_stamped dryRun hread hdoc hstamp
        obtain ⟨events, hevents, hfiles, hconclude⟩ :=
          runIn_concludeStamp ⟨path, t, stamped⟩ (Stamp.familyCount lead es) dryRun (w.record early)
        have hhandles : Handles path (early ++ events) := by
          rcases hfiles with hfiles | hfiles
          · exact .inl (by rw [filesIn_append, hfile, hfiles, List.append_nil])
          · exact .inr (by rw [filesIn_append, hfile, hfiles, List.singleton_append])
        refine ⟨early ++ events, (Reports.quiet hearly).append hevents, hhandles, ?_⟩
        simp only [hrun, hconclude, stampFile, stampedText, hread, hdoc, hstamp, Manifest.render,
          World.record_files, World.record_cwd, World.record_record]
        by_cases hsame : stamped.render = t
        · simp [hsame, Except.map]
        · cases dryRun with
          | true => simp [hsame, Except.map]
          | false =>
            simp only [hsame, Bool.false_eq_true, ↓reduceIte]
            cases w.files.writeText w.cwd path stamped.render <;> simp [Except.map, World.record]

theorem runIn_stampMember (c : Config) (version : Text) (manifest : Path) (w : World σ) :
    ∃ events, Reports c.dryRun [settingLine w.painted c version manifest] events ∧ Handles manifest events ∧
      (stampMember c version manifest).runIn w =
        ((stampFile version c.family c.dryRun w.cwd w.files manifest).1,
          { w with files := (stampFile version c.family c.dryRun w.cwd w.files manifest).2 }.record
            events) := by
  let line : List Event := [.output (.stdout (settingLine w.painted c version manifest))]
  have hline : Reports c.dryRun [settingLine w.painted c version manifest] line := Reports.line _
  obtain ⟨events, hevents, hfiles, hresult, hworld⟩ :=
    runIn_applyVersion manifest version c.family c.dryRun (w.record line)
  have hhandles : Handles manifest (line ++ events) := .append_left rfl hfiles
  simp only [World.record_files, World.record_cwd] at hresult hworld
  have hstart : (stampMember c version manifest).runIn w =
      (applyVersion manifest version c.family c.dryRun >>= fun o => do
        if !o.changed then
          ReleaseM.log .debug .release (manifest ++ " already at v".toList ++ version)
        pure o.changed).runIn (w.record line) := by
    simp only [stampMember, ReleaseM.runIn_bind, ReleaseM.runIn_paint, ReleaseM.runIn_printLine]
    rfl
  rw [hstart, ReleaseM.runIn_bind]
  rcases hrun : (applyVersion manifest version c.family c.dryRun).runIn (w.record line) with ⟨e | o, w'⟩
  · rw [hrun] at hresult hworld
    refine ⟨line ++ events, hline.append hevents, hhandles, ?_⟩
    simp only at hworld
    rw [← hresult, hworld]
    simp [Except.map, World.record]
  · rw [hrun] at hresult hworld
    simp only at hworld
    rw [← hresult, hworld]
    cases hchanged : o.changed with
    | true =>
      refine ⟨line ++ events, hline.append hevents, hhandles, ?_⟩
      simp [Except.map, World.record, hchanged]
    | false =>
      refine ⟨(line ++ events) ++ [_], (hline.append hevents).append (Reports.log
        ⟨.debug, .release, manifest ++ " already at v".toList ++ version⟩), hhandles.append rfl, ?_⟩
      simp only [Except.map, hchanged, Bool.not_false, ↓reduceIte, ReleaseM.runIn_bind,
        ReleaseM.runIn_log, ReleaseM.runIn_pure]
      simp [World.record]

theorem runIn_stampMembers (c : Config) (version : Text) (manifests : List Path) (w : World σ) :
    ∃ events, Reports c.dryRun ((reached version c.family c.dryRun w.cwd w.files manifests).map
        (settingLine w.painted c version)) events ∧
      (stampMembers c version manifests).runIn w =
        ((stampFiles version c.family c.dryRun w.cwd w.files manifests).1,
          { w with files := (stampFiles version c.family c.dryRun w.cwd w.files manifests).2 }.record
            events) := by
  induction manifests generalizing w with
  | nil => exact ⟨[], Reports.nil, by simp [stampMembers, stampFiles, World.record]⟩
  | cons manifest manifests ih =>
    obtain ⟨events, hevents, -, hrun⟩ := runIn_stampMember c version manifest w
    simp only [stampMembers, ReleaseM.runIn_bind, hrun, reached, stampFiles]
    rcases hfile : stampFile version c.family c.dryRun w.cwd w.files manifest with ⟨e | changed, files⟩
    · exact ⟨events, hevents, rfl⟩
    · obtain ⟨more, hmore, hrest⟩ := ih ({ w with files }.record events)
      simp only [World.record_files, World.record_cwd, World.record_painted] at hmore hrest
      refine ⟨events ++ more, hevents.append hmore, ?_⟩
      simp only [hrest]
      rcases stampFiles version c.family c.dryRun w.cwd files manifests with ⟨e | n, files'⟩
      · simp [World.record]
      · simp [World.record]

def stampWorkspace (c : Config) (version : Text) (cwd : Location) (files : FileTree) :
    Except ReleaseError Unit × FileTree :=
  match membersOf files cwd c.workspace with
  | .error e => (.error e, files)
  | .ok manifests =>
    ((stampFiles version c.family c.dryRun cwd files manifests).1.map fun _ => (),
      (stampFiles version c.family c.dryRun cwd files manifests).2)

def summaryLines (painted : Bool) (c : Config) (version : Text) (total : Nat) :
    Except ReleaseError Nat → List Text
  | .error _ => []
  | .ok changed => if c.dryRun then [] else [summaryLine painted version changed total]

def workspaceLines (painted : Bool) (c : Config) (version : Text) (cwd : Location) (files : FileTree) :
    List Text :=
  match membersOf files cwd c.workspace with
  | .error _ => []
  | .ok manifests =>
    (reached version c.family c.dryRun cwd files manifests).map (settingLine painted c version) ++
      summaryLines painted c version manifests.length
        (stampFiles version c.family c.dryRun cwd files manifests).1

theorem runIn_setVersions (c : Config) (version : Text) (w : World σ) :
    ∃ events, Reports c.dryRun (workspaceLines w.painted c version w.cwd w.files) events ∧
      (setVersions c version).runIn w =
        ((stampWorkspace c version w.cwd w.files).1,
          { w with files := (stampWorkspace c version w.cwd w.files).2 }.record events) := by
  obtain ⟨logs, hlogs, hmembers⟩ := runIn_listMemberManifests c.workspace w
  have hread : Reports c.dryRun [] (.read (c.workspace.join manifestFile) :: logs) :=
    (Reports.read _).append (Reports.quiet hlogs)
  simp only [setVersions, ReleaseM.runIn_bind, hmembers, workspaceLines, stampWorkspace]
  cases membersOf w.files w.cwd c.workspace with
  | error e => exact ⟨_, hread, rfl⟩
  | ok manifests =>
    obtain ⟨events, hevents, hrun⟩ := runIn_stampMembers c version manifests
      (w.record (.read (c.workspace.join manifestFile) :: logs))
    simp only [World.record_files, World.record_cwd, World.record_painted] at hevents hrun
    simp only [hrun]
    rcases stampFiles version c.family c.dryRun w.cwd w.files manifests with ⟨e | n, files⟩
    · refine ⟨_, (hread.append hevents).append Reports.nil, ?_⟩
      simp [World.record, Except.map]
    · cases hdry : c.dryRun with
      | true =>
        rw [hdry] at hread hevents
        have hnone : summaryLines w.painted c version manifests.length (.ok n) = [] := if_pos hdry
        refine ⟨_, by simpa [hnone] using (hread.append hevents), ?_⟩
        simp [World.record, Except.map]
      | false =>
        rw [hdry] at hread hevents
        have hsome : summaryLines w.painted c version manifests.length (.ok n) =
            [summaryLine w.painted version n manifests.length] := by simp [summaryLines, hdry]
        refine ⟨_, by simpa only [hsome, List.nil_append] using (hread.append hevents).append (Reports.line _), ?_⟩
        simp only [Bool.not_false, ↓reduceIte, ReleaseM.runIn_bind, ReleaseM.runIn_paint,
          ReleaseM.runIn_printLine, World.record, summaryLine, List.append_assoc]
        rfl

end WorkspaceRelease

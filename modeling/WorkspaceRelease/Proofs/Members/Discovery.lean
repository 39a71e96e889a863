import WorkspaceRelease.Proofs.Members

/-!
Which members the manifest at the root declares, and that no member is touched where it does not declare them.
-/

namespace WorkspaceRelease

open Toml

variable {σ : Type}

/-- An array of members in the table of the workspace, whatever its form. -/
inductive ListsMembers (d : Document) (items : List Node) : Prop
  | array {form : TableForm} {es : List Entry} {comma : Bool} {trailing : Text} {pad : Padding} :
    Entries.find? "workspace".toList d.entries = some (.table form es) →
    Entries.find? "members".toList es = some (.array items comma trailing pad) → ListsMembers d items

/-- The names of the members, if the manifest at the root can be read and lists nothing but names. -/
inductive Declares (files : FileTree) (cwd : Location) (workspace : Path) (names : List Text) : Prop
  | document {t : Text} {d : Document} {items : List Node} : files.readText cwd (workspace.join manifestFile) = .ok t →
    Document.read t = .ok d → ListsMembers d items → items.map Node.string? = names.map some →
    Declares files cwd workspace names

theorem declared?_eq_array {d : Document} {items : List Node} :
    (∃ comma trailing pad, declared? d = some (.array items comma trailing pad)) ↔ ListsMembers d items := by
  constructor
  · rintro ⟨comma, trailing, pad, h⟩
    obtain ⟨n, hn, h⟩ := Option.bind_eq_some_iff.mp h
    cases n with
    | table form es => exact .array hn h
    | scalar | array | tables => exact nomatch h
  · rintro ⟨hworkspace, hmembers⟩
    exact ⟨_, _, _, Option.bind_eq_some_iff.mpr ⟨_, hworkspace, hmembers⟩⟩

theorem membersOf_eq_ok_iff {files : FileTree} {cwd : Location} {workspace : Path} {manifests : List Path} :
    membersOf files cwd workspace = .ok manifests ↔ ∃ names, Declares files cwd workspace names ∧
      manifests = names.map fun name => (workspace.join name).join manifestFile := by
  rw [membersOf_eq_ok]
  simp only [membersIn_eq_ok, declaredMembers_eq_ok]
  constructor
  · rintro ⟨t, ht, d, names, hd, ⟨items, comma, trailing, pad, hfound, hnames⟩, hmanifests⟩
    have hlists := declared?_eq_array.mp ⟨comma, trailing, pad, hfound⟩
    exact ⟨names, .document ht hd hlists hnames, hmanifests⟩
  · rintro ⟨names, ⟨ht, hd, hlists, hnames⟩, hmanifests⟩
    obtain ⟨comma, trailing, pad, hfound⟩ := declared?_eq_array.mpr hlists
    exact ⟨_, ht, _, names, hd, ⟨_, comma, trailing, pad, hfound, hnames⟩, hmanifests⟩

theorem membersOf_error {files : FileTree} {cwd : Location} {workspace : Path} {e : ReleaseError}
    (h : membersOf files cwd workspace = .error e) :
    ∃ fault, e = .rootManifest (workspace.join manifestFile) fault := by
  unfold membersOf at h
  cases hread : files.readText cwd (workspace.join manifestFile) with
  | error cause =>
    rw [hread] at h
    exact ⟨_, (Except.error.inj h).symm⟩
  | ok t =>
    simp only [hread] at h
    cases hmembers : membersIn workspace t with
    | error fault =>
      rw [hmembers] at h
      exact ⟨fault, (Except.error.inj h).symm⟩
    | ok manifests => simp [hmembers, mapError_ok] at h

theorem mapM_memberName_eq_error {items : List Node} {item : Node}
    (h : items.find? (fun n => n.string?.isNone) = some item) :
    items.mapM memberName = .error (.notAString (item.render Margin.none).trim) := by
  induction items with
  | nil => simp at h
  | cons n ns ih =>
    rw [List.mapM_cons]
    cases hn : n.string? with
    | none =>
      obtain rfl : n = item := by simpa [hn] using h
      simp only [memberName, hn]
      rfl
    | some name =>
      rw [memberName_eq_ok.mpr hn, ih (by simpa [hn] using h)]
      rfl

theorem membersOf_notAString {files : FileTree} {cwd : Location} {workspace : Path} {t : Text} {d : Document}
    {items : List Node} {item : Node} (ht : files.readText cwd (workspace.join manifestFile) = .ok t)
    (hd : Document.read t = .ok d) (hlists : ListsMembers d items)
    (hitem : items.find? (fun n => n.string?.isNone) = some item) :
    membersOf files cwd workspace = .error (.rootManifest (workspace.join manifestFile)
      (.notAString (item.render Margin.none).trim)) := by
  obtain ⟨comma, trailing, pad, hfound⟩ := declared?_eq_array.mpr hlists
  have hnames : declaredMembers d = .error (.notAString (item.render Margin.none).trim) := by
    rw [declared?] at hfound
    rw [declaredMembers, hfound]
    exact mapM_memberName_eq_error hitem
  simp only [membersOf, ht, membersIn, hd, hnames]
  rfl

theorem message_notAString (path : Path) (written : Text) :
    (ReleaseError.rootManifest path (.notAString written)).message =
      "Invalid workspace manifest ".toList ++ path ++ ": member ".toList ++ written ++ " is not a string".toList := by
  have hmessage : (ReleaseError.rootManifest path (.notAString written)).message =
      "Invalid workspace manifest ".toList ++ path ++ ": ".toList ++
        ("member ".toList ++ written ++ " is not a string".toList) := rfl
  have hword : ": member ".toList = ": ".toList ++ "member ".toList := rfl
  rw [hmessage, hword]
  simp only [List.append_assoc]

/-- What listing the members of a workspace comes to, and setting its versions where they cannot be listed. -/
structure MembersKnown (c : Config) (version : Text) (w : World σ) : Prop where
  lists : ∀ manifests, ((listMemberManifests c.workspace).runIn w).1 = .ok manifests ↔
    ∃ names, Declares w.files w.cwd c.workspace names ∧
      manifests = names.map fun name => (c.workspace.join name).join manifestFile
  absolute : ∀ name : Path, name.isAbsolute = true → (c.workspace.join name).join manifestFile = name.join manifestFile
  fails : (¬∃ names, Declares w.files w.cwd c.workspace names) → ∃ fault events,
    ((listMemberManifests c.workspace).runIn w).1 = .error (.rootManifest (c.workspace.join manifestFile) fault) ∧
    (setVersions c version).runIn w =
      (.error (.rootManifest (c.workspace.join manifestFile) fault), w.record events) ∧
    (∀ e ∈ events, e.isWrite = false) ∧ printedIn events = []
  names : ∀ t d items item, w.files.readText w.cwd (c.workspace.join manifestFile) = .ok t → Document.read t = .ok d →
    ListsMembers d items → items.find? (fun n => n.string?.isNone) = some item →
    ∃ e, ((listMemberManifests c.workspace).runIn w).1 = .error e ∧
      e.message = "Invalid workspace manifest ".toList ++ c.workspace.join manifestFile ++ ": member ".toList ++
        (item.render Margin.none).trim ++ " is not a string".toList

theorem setVersions_unlisted {c : Config} (version : Text) {w : World σ} {e : ReleaseError}
    (h : membersOf w.files w.cwd c.workspace = .error e) :
    ∃ events, (setVersions c version).runIn w = (.error e, w.record events) ∧
      (∀ e ∈ events, e.isWrite = false) ∧ printedIn events = [] := by
  obtain ⟨logs, hlogs, hlist⟩ := runIn_listMemberManifests c.workspace w
  have hreports : Reports true [] ([.read (c.workspace.join manifestFile)] ++ logs) :=
    (Reports.read _).append (Reports.quiet hlogs)
  refine ⟨_, ?_, hreports.noWrite rfl, hreports.printed⟩
  simp only [setVersions, ReleaseM.runIn_bind, hlist, h]
  rfl

theorem membersKnown (c : Config) (version : Text) (w : World σ) : MembersKnown c version w := by
  obtain ⟨logs, -, hlist⟩ := runIn_listMemberManifests c.workspace w
  have hresult : ((listMemberManifests c.workspace).runIn w).1 = membersOf w.files w.cwd c.workspace := by rw [hlist]
  refine ⟨fun manifests => ?_, fun name habsolute => ?_, fun hnone => ?_, fun t d items item ht hd hlists hitem => ?_⟩
  · rw [hresult, membersOf_eq_ok_iff]
  · have hjoin : c.workspace.join name = name := if_pos habsolute
    rw [hjoin]
  · cases hmembers : membersOf w.files w.cwd c.workspace with
    | ok manifests =>
      obtain ⟨names, hnames, -⟩ := membersOf_eq_ok_iff.mp hmembers
      exact absurd ⟨names, hnames⟩ hnone
    | error e =>
      obtain ⟨fault, rfl⟩ := membersOf_error hmembers
      obtain ⟨events, hrun, hwrites, hprinted⟩ := setVersions_unlisted version hmembers
      exact ⟨fault, events, hresult.trans hmembers, hrun, hwrites, hprinted⟩
  · exact ⟨_, hresult.trans (membersOf_notAString ht hd hlists hitem), message_notAString _ _⟩

/-- The first of three members is a name, and has a manifest. -/
def numberedManifest : Text := "workspace = \x7b members = ['a', 42, true] \x7d\n".toList

def numberedDocument : Document :=
  let items : List Node := [literalNode ['a'] [] [], spacedNode (.integer 42) "42".toList [' '] [], trueNode []]
  ⟨[(bareKey "workspace" [' '],
    bracedNode [] [(spacedKey "members" [' '] [' '], .array items false [] ⟨some [' '], some [' ']⟩)])], []⟩

def numberedWorld : World Unit :=
  .fresh { entries :=
    [([manifestFile], .file (.text numberedManifest)), (["a".toList], .directory),
      (["a".toList, manifestFile], .file (.text "[package]\n".toList))] }

theorem membersKnown_numbered :
    (∃ e, ((listMemberManifests defaultWorkspace).runIn numberedWorld).1 = .error e ∧
      e.message = "Invalid workspace manifest ./Cargo.toml: member 42 is not a string".toList) ∧
    ((setVersions {} ['1']).runIn numberedWorld).2.files = numberedWorld.files := by
  have hknown : MembersKnown {} ['1'] numberedWorld := membersKnown _ _ _
  have hread : Document.read numberedManifest = .ok numberedDocument := rfl
  have hlists : ListsMembers numberedDocument _ := .array rfl rfl
  obtain ⟨e, he, hmessage⟩ := hknown.names numberedManifest _ _ _ rfl hread hlists rfl
  have hnone : ¬∃ names, Declares numberedWorld.files numberedWorld.cwd ({} : Config).workspace names := by
    rintro ⟨names, hnames⟩
    have hok := (hknown.lists _).mpr ⟨names, hnames, rfl⟩
    rw [he] at hok
    exact nomatch hok
  obtain ⟨_, _, -, hrun, -⟩ := hknown.fails hnone
  exact ⟨⟨e, he, hmessage⟩, by rw [hrun]; rfl⟩

end WorkspaceRelease

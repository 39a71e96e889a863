import WorkspaceRelease.Proofs.Stamping.Texts

/-!
The members that a manifest declares depend on its keys and values alone, and no stamp changes them.
-/

namespace WorkspaceRelease

open Toml

theorem memberName_eq_ok {n : Node} {name : Text} : memberName n = .ok name ↔ n.string? = some name := by
  unfold memberName
  cases n.string? <;> simp

theorem mapM_memberName_eq_ok {items : List Node} {names : List Text} :
    items.mapM memberName = .ok names ↔ items.map Node.string? = names.map some := by
  induction items generalizing names with
  | nil => cases names <;> simp [pure, Except.pure]
  | cons n ns ih =>
    rw [List.mapM_cons, bind_eq_ok]
    constructor
    · rintro ⟨name, hname, h⟩
      obtain ⟨rest, hrest, h⟩ := bind_eq_ok.mp h
      obtain rfl : name :: rest = names := Except.ok.inj h
      rw [List.map_cons, List.map_cons, memberName_eq_ok.mp hname, ih.mp hrest]
    · intro h
      cases names with
      | nil => simp at h
      | cons name rest =>
        obtain ⟨hname, hrest⟩ := List.cons.inj h
        exact ⟨name, memberName_eq_ok.mpr hname, bind_eq_ok.mpr ⟨rest, ih.mpr hrest, rfl⟩⟩

def declared? (d : Document) : Option Node :=
  (Entries.find? "workspace".toList d.entries).bind (Node.get? "members".toList)

theorem declaredMembers_eq_ok {d : Document} {names : List Text} :
    declaredMembers d = .ok names ↔ ∃ items comma trailing pad,
      declared? d = some (.array items comma trailing pad) ∧ items.map Node.string? = names.map some := by
  unfold declaredMembers
  split
  next items comma trailing pad hfound =>
    have hfound : declared? d = some (.array items comma trailing pad) := hfound
    rw [mapM_memberName_eq_ok, hfound]
    constructor
    · intro h
      exact ⟨items, comma, trailing, pad, rfl, h⟩
    · rintro ⟨_, _, _, _, hsame, h⟩
      obtain ⟨rfl, -⟩ := Node.array.inj (Option.some.inj hsame)
      exact h
  next hother =>
    constructor
    · intro h
      exact nomatch h
    · rintro ⟨items, comma, trailing, pad, hfound, -⟩
      exact absurd hfound (hother items comma trailing pad)

section Agree

variable {exact : Bool} {n m : Node} {d e : Document}

theorem declared?_agree (h : d.Agree exact e) (hd : declared? d = some n) :
    ∃ m, declared? e = some m ∧ Node.Agree exact n m := by
  obtain ⟨a, ha, hn⟩ := Option.bind_eq_some_iff.mp hd
  obtain ⟨b, hb, hagree⟩ := Node.Agree.find? h ha
  obtain ⟨m, hm, hnm⟩ := hagree.get? hn
  exact ⟨m, Option.bind_eq_some_iff.mpr ⟨b, hb, hm⟩, hnm⟩

theorem declared?_distinct (hd : distinctEntries d.entries) (hn : declared? d = some n) : n.Distinct := by
  obtain ⟨a, ha, hn⟩ := Option.bind_eq_some_iff.mp hn
  cases a with
  | table form es => exact distinctEntries_find? (distinctEntries_find? hd ha) hn
  | scalar | array | tables => exact nomatch hn

theorem strings_agree {items others : List Node} (hlength : items.length = others.length)
    (h : ∀ (i : Nat) (a : Node), items[i]? = some a → ∃ b, others[i]? = some b ∧ Node.Agree exact a b) {names : List Text}
    (hnames : items.map Node.string? = names.map some) : others.map Node.string? = names.map some := by
  induction items generalizing others names with
  | nil =>
    obtain rfl : others = [] := List.eq_nil_of_length_eq_zero hlength.symm
    exact hnames
  | cons a items ih =>
    cases others with
    | nil => simp at hlength
    | cons b others =>
      cases names with
      | nil => simp at hnames
      | cons name names =>
        obtain ⟨hname, hrest⟩ := List.cons.inj hnames
        obtain ⟨_, hb, hab⟩ := h 0 a rfl
        obtain rfl := Option.some.inj hb
        have htail := ih (Nat.succ.inj hlength) (fun i c hc => h (i + 1) c hc) hrest
        rw [List.map_cons, List.map_cons, hab.string? hname, htail]

/-- A list of strings stays one: an array of tables has a table in it. -/
theorem declaredMembers_agree (h : d.Agree exact e) (he : distinctEntries e.entries) {names : List Text}
    (hd : declaredMembers d = .ok names) : declaredMembers e = .ok names := by
  obtain ⟨items, comma, trailing, pad, hfound, hnames⟩ := declaredMembers_eq_ok.mp hd
  obtain ⟨m, hm, hagree⟩ := declared?_agree h hfound
  have hlist := hagree.shape_eq
  cases m with
  | scalar | table => simp [Node.shape] at hlist
  | array others comma' trailing' pad' =>
    refine declaredMembers_eq_ok.mpr ⟨others, comma', trailing', pad', hm, ?_⟩
    exact strings_agree (by simpa [Node.shape] using hlist) (fun i a ha => hagree.child (s := .item i) ha) hnames
  | tables ts =>
    obtain ⟨⟨hne, htables⟩, -⟩ := declared?_distinct he hm
    have hstrings := strings_agree (by simpa [Node.shape] using hlist)
      (fun i a ha => hagree.child (s := .item i) ha) hnames
    cases ts with
    | nil => exact absurd rfl hne
    | cons t ts =>
      obtain ⟨form, es, rfl⟩ := htables t List.mem_cons_self
      cases names <;> simp [Node.string?] at hstrings

end Agree

theorem declaredMembers_stampDocument {version lead : Text} {d stamped : Document}
    (h : Stamp.stampDocument? version lead d = some stamped) : declaredMembers stamped = declaredMembers d := by
  simp only [declaredMembers]
  rw [Stamp.find?_stampDocument h (by decide) (by decide) (by decide)]

theorem membersIn_eq_ok {workspace : Path} {t : Text} {manifests : List Path} :
    membersIn workspace t = .ok manifests ↔ ∃ d names, Document.read t = .ok d ∧ declaredMembers d = .ok names ∧
      manifests = names.map fun m => (workspace.join m).join manifestFile := by
  unfold membersIn
  cases Document.read t with
  | error fault => simp
  | ok d => cases hnames : declaredMembers d <;> simp [Except.map, eq_comm, hnames]

theorem membersOf_eq_ok {files : FileTree} {cwd : Location} {workspace : Path} {manifests : List Path} :
    membersOf files cwd workspace = .ok manifests ↔
      ∃ t, files.readText cwd (workspace.join manifestFile) = .ok t ∧ membersIn workspace t = .ok manifests := by
  unfold membersOf
  cases files.readText cwd (workspace.join manifestFile) with
  | error cause => simp
  | ok t => cases h : membersIn workspace t <;> simp [mapError_ok, mapError_error, h]

/-- What the stamp prints for a manifest declares the same members. -/
theorem membersIn_stamps {lead version t s : Text} {workspace : Path} {manifests : List Path}
    (hfaithful : FaithfulText lead version t) (hs : Stamps lead version t s)
    (h : membersIn workspace t = .ok manifests) : membersIn workspace s = .ok manifests := by
  obtain ⟨d, names, hd, hnames, rfl⟩ := membersIn_eq_ok.mp h
  obtain ⟨d', stamped, hd', hstamp, rfl⟩ := hs
  obtain rfl : d = d' := Except.ok.inj (hd.symm.trans hd')
  obtain ⟨e, he, hagree, -⟩ := hfaithful d stamped hd hstamp
  rw [← declaredMembers_stampDocument hstamp] at hnames
  exact membersIn_eq_ok.mpr ⟨e, names, he, declaredMembers_agree hagree (distinct_read he) hnames, rfl⟩

end WorkspaceRelease

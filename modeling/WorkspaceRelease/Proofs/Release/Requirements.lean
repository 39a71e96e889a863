import WorkspaceRelease.Proofs.Manifest.Requirements
import WorkspaceRelease.Proofs.Members
import WorkspaceRelease.Proofs.Release.Postcondition

/-!
What the requirements of a family denote after a release. Those with a version of their own have the new one;
those that inherit denote what the manifest at the root has said before.
-/

namespace WorkspaceRelease

open Toml FileTree

variable {σ : Type}

def Executor.SparesRoot (executor : Executor σ) (c : Config) (w : World σ) : Prop :=
  ∀ i s files, (executor i s files).files.readText w.cwd (c.workspace.join manifestFile) =
    files.readText w.cwd (c.workspace.join manifestFile)

section Files

variable {c : Config} {w : World σ} {version : Text}

/-- What the executor spares is in the end what the stamp has left. -/
theorem release_files (executor : Executor σ) (hset : c.setVersion = true) (hreal : c.dryRun = false)
    (hok : ((release c executor).runIn w).1 = .ok ()) :
    ∃ version order manifests n, dataOf w.files w.cwd c.workspace = .ok (version, order) ∧
      membersOf w.files w.cwd c.workspace = .ok manifests ∧
      (stampFiles version c.family false w.cwd w.files manifests).1 = .ok n ∧
      ∀ p, (∀ i s files, (executor i s files).files.readText w.cwd p = files.readText w.cwd p) →
        ((release c executor).runIn w).2.files.readText ((release c executor).runIn w).2.cwd p =
          (stampFiles version c.family false w.cwd w.files manifests).2.readText w.cwd p := by
  obtain ⟨version, order, manifests, n, es, hdata, hmembers, hn, hrun⟩ := release_stamped executor hset hreal hok
  refine ⟨version, order, manifests, n, hdata, hmembers, hn, fun p hp => ?_⟩
  let stamped := (stampFiles version c.family false w.cwd w.files manifests).2
  have hkeeps : (commandStage c executor version order).Keeps fun files =>
      files.readText w.cwd p = stamped.readText w.cwd p :=
    keeps_commandStage (fun i s files hfiles => (hp i s files).trans hfiles) c version order
  obtain ⟨hkept, hcwd⟩ := hkeeps (World.record { w with files := stamped } es) rfl
  rw [hrun, hcwd]
  exact hkept

variable {manifests : List Path} {result : Except ReleaseError Nat} {after : FileTree}

theorem denoted?_stampFiles {t : Text} {d : Document} {p : Path}
    (hrun : StampRun (Relation.TransGen (Stamps c.family version)) version c.family w.cwd w.files w.files manifests
      result after)
    (hfaithful : ∀ m ∈ manifests, ∀ t, w.files.readText w.cwd m = .ok t → Faithful c.family version t)
    (hread : w.files.readText w.cwd p = .ok t) (hd : Document.read t = .ok d) :
    ∃ s e, after.readText w.cwd p = .ok s ∧ Document.read s = .ok e ∧
      ∀ name n, n.inherits = true → e.denoted? name n = d.denoted? name n := by
  obtain ⟨l, hl, ht⟩ := readText_eq_ok.mp hread
  have hl' : after.resolve w.cwd p = .ok l := (hrun.rewritten.resolve_eq w.cwd p).trans hl
  by_cases hmember : ∃ m ∈ accepted version c.family w.files w.cwd manifests, w.files.resolve w.cwd m = .ok l
  · obtain ⟨m, hm, hml⟩ := hmember
    obtain ⟨k, hk, t', s, ht', hs, hstamps⟩ := hrun.settles m hm
    obtain rfl : k = l := Except.ok.inj (hk.symm.trans hml)
    obtain rfl : t = t' := by simpa [ht] using ht'
    have hmem : m ∈ manifests := (List.takeWhile_sublist _).subset hm
    have hm' := hfaithful m hmem t (readText_eq_ok.mpr ⟨k, hml, ht⟩)
    obtain ⟨e, he, hsame⟩ := hm'.denoted? hstamps.to_reflTransGen hd
    exact ⟨s, e, readText_eq_ok.mpr ⟨k, hl', hs⟩, he, hsame⟩
  · have hsame := hrun.others l fun m hm hml => hmember ⟨m, hm, hml⟩
    exact ⟨t, d, readText_eq_ok.mpr ⟨l, hl', (hrun.rewritten.textAt_eq hsame).trans ht⟩, hd, fun _ _ _ => rfl⟩

end Files

/-- What the requirements of the family denote, after a release, with the manifest at the root as it was and as
it is. -/
structure Resolved (c : Config) (w after : World σ) (version : Text) (manifests : List Path)
    (root root' : Manifest) : Prop where
  loaded : ((loadVersion c.workspace).runIn w).1 = .ok version
  members : ((listMemberManifests c.workspace).runIn w).1 = .ok manifests
  before : ((Manifest.load (c.workspace.join manifestFile)).runIn w).1 = .ok root
  later : ((Manifest.load (c.workspace.join manifestFile)).runIn after).1 = .ok root'
  denoted : ∀ m ∈ manifests, ∃ manifest, ((Manifest.load m).runIn after).1 = .ok manifest ∧
    ∀ name n, (name, n) ∈ manifest.document.requirements c.family →
      (n.inherits = false → root'.document.denoted? name n = some version) ∧
      (n.inherits = true → root'.document.denoted? name n = root.document.denoted? name n)

theorem load_eq_ok {path : Path} {w : World σ} {t : Text} {d : Document}
    (hread : w.files.readText w.cwd path = .ok t) (hd : Document.read t = .ok d) :
    ((Manifest.load path).runIn w).1 = .ok ⟨path, t, d⟩ := by
  simp only [runIn_load, hread, hd]

theorem release_requirements {c : Config} {executor : Executor σ} {w : World σ} (hset : c.setVersion = true)
    (hreal : c.dryRun = false) (hmember : executor.Spares c w) (hroot : executor.SparesRoot c w)
    (hcodec : FaithfulMembers c w) (hok : ((release c executor).runIn w).1 = .ok ()) :
    ∃ version manifests root root', Resolved c w ((release c executor).runIn w).2 version manifests root root' := by
  obtain ⟨version, order, manifests, n, hdata, hmembers, hn, hfiles⟩ := release_files executor hset hreal hok
  obtain ⟨hversion, -⟩ := dataOf_eq_ok.mp hdata
  obtain ⟨_, -, hload⟩ := runIn_loadVersion c.workspace w
  obtain ⟨_, -, hlist⟩ := runIn_listMemberManifests c.workspace w
  have hmanifests : ((listMemberManifests c.workspace).runIn w).1 = .ok manifests := by rw [hlist]; exact hmembers
  have hfaithful := hcodec.faithful hversion hmembers
  have hrun := stampFiles_of_faithful hfaithful
  obtain ⟨t, hread, hlisted⟩ := membersOf_eq_ok.mp hmembers
  obtain ⟨d, _, hd, -⟩ := membersIn_eq_ok.mp hlisted
  obtain ⟨s, e, hread', he, hsame⟩ := denoted?_stampFiles hrun hfaithful hread hd
  refine ⟨version, manifests, _, _, ?_, hmanifests, load_eq_ok hread hd,
    load_eq_ok ((hfiles _ hroot).trans hread') he, fun m hm => ?_⟩
  · rw [hload]
    exact hversion
  · have hverdict : verdict version c.family false w.files w.cwd manifests = .ok () := by
      rw [← hrun.verdict, hn]
      rfl
    obtain ⟨l, hl, t', s', ht', hs', hstamps⟩ := hrun.settles m (by rwa [accepted_of_verdict hverdict])
    have hm' := hfaithful m hm t' (readText_eq_ok.mpr ⟨l, hl, ht'⟩)
    obtain ⟨f, hf, hcurrent⟩ := hm'.stamped hstamps
    have hfile := readText_eq_ok.mpr ⟨l, (hrun.rewritten.resolve_eq w.cwd m).trans hl, hs'⟩
    have hspared := hfiles m fun i s files => hmember manifests hmanifests i s files m hm
    refine ⟨_, load_eq_ok (hspared.trans hfile) hf, fun name n hmem => ⟨fun hown => ?_, hsame name n⟩⟩
    rw [Document.denoted?, if_neg (by simp [hown])]
    exact hcurrent.requirement? hmem hown

/-- A manifest of which one requirement inherits from the workspace. -/
def heirManifest (version : Text) : Text :=
  "[package]\nversion = \"".toList ++ version ++
    "\"\n[dependencies]\nena-b = \x7b workspace = true \x7d\nena-c = \"".toList ++ version ++ "\"\n".toList

def heirDocument (version : Text) : Document :=
  ⟨[bareHeader 1 "package" [lineEntry "version" version],
    bareHeader 2 "dependencies" [(bareKey "ena-b" [' '], inheritedNode), lineEntry "ena-c" version]], []⟩

def heirWorld : World Unit :=
  .fresh { entries :=
    [(["Cargo.toml".toList],
        .file (.text "[workspace]\nmembers = [\"a\"]\n[workspace.dependencies]\nena-b = \"0\"\n".toList)),
      (["version.txt".toList], .file (.text "1\n".toList)),
      (["publish-order.txt".toList], .file (.text "a\n".toList)),
      (["a".toList], .directory),
      (["a".toList, "Cargo.toml".toList], .file (.text (heirManifest ['0'])))] }

def heirConfig : Config := { setVersion := true, family := "ena".toList }

theorem loadVersion_heir : ((loadVersion heirConfig.workspace).runIn heirWorld).1 = .ok ['1'] := rfl

theorem listMemberManifests_heir :
    ((listMemberManifests heirConfig.workspace).runIn heirWorld).1 = .ok ["./a/Cargo.toml".toList] := rfl

theorem release_heir : ((release heirConfig (Executor.scripted [])).runIn heirWorld).1 = .ok () :=
  eq_ok_of_isOk (by decide +kernel)

set_option maxRecDepth 10000 in
theorem faithfulText_heirManifest : FaithfulText "ena".toList ['1'] (heirManifest ['0']) := by
  have hread : Document.read (heirManifest ['0']) = .ok (heirDocument ['0']) := rfl
  have hstamp : Stamp.stampDocument? ['1'] "ena".toList (heirDocument ['0']) = some (heirDocument ['1']) := rfl
  have hprint : (heirDocument ['1']).render = heirManifest ['1'] := rfl
  have hagain : Document.read (heirManifest ['1']) = .ok (heirDocument ['1']) := rfl
  exact .of_read hread hstamp (by rw [hprint, hagain])

theorem faithfulMembers_heir : FaithfulMembers heirConfig heirWorld := by
  intro version manifests hversion hmembers m hm t ht
  obtain rfl : ['1'] = version := Except.ok.inj (loadVersion_heir.symm.trans hversion)
  obtain rfl : ["./a/Cargo.toml".toList] = manifests := Except.ok.inj (listMemberManifests_heir.symm.trans hmembers)
  obtain rfl := List.mem_singleton.mp hm
  have hread : heirWorld.files.readText heirWorld.cwd "./a/Cargo.toml".toList = .ok (heirManifest ['0']) := rfl
  obtain rfl : heirManifest ['0'] = t := Except.ok.inj (hread.symm.trans ht)
  exact faithfulText_heirManifest.faithful

theorem release_requirements_heir :
    ∃ version manifests root root', Resolved heirConfig heirWorld
      ((release heirConfig (Executor.scripted [])).runIn heirWorld).2 version manifests root root' :=
  release_requirements rfl rfl (spares_scripted [] _ _) (fun _ _ _ => rfl) faithfulMembers_heir release_heir

/-- What the requirements of one member denote, where the manifests can be read. -/
def denotedIn (c : Config) (after : World Unit) (member : Path) : Option (List (Option Text)) := do
  let root ← ((Manifest.load (c.workspace.join manifestFile)).runIn after).1.toOption
  let manifest ← ((Manifest.load member).runIn after).1.toOption
  some ((manifest.document.requirements c.family).map fun (name, n) => root.document.denoted? name n)

/-- All requirements of the family denote the version, those that inherit as well. -/
def AllCurrent (c : Config) (w after : World σ) : Prop :=
  ∃ version manifests root, ((loadVersion c.workspace).runIn w).1 = .ok version ∧
    ((listMemberManifests c.workspace).runIn w).1 = .ok manifests ∧
    ((Manifest.load (c.workspace.join manifestFile)).runIn after).1 = .ok root ∧
    ∀ m ∈ manifests, ∃ manifest, ((Manifest.load m).runIn after).1 = .ok manifest ∧
      ∀ name n, (name, n) ∈ manifest.document.requirements c.family →
        (n.inherits = false → root.document.denoted? name n = some version) ∧
        ∀ v, root.document.denoted? name n = some v → v = version

theorem not_allCurrent_heir :
    ¬AllCurrent heirConfig heirWorld ((release heirConfig (Executor.scripted [])).runIn heirWorld).2 := by
  rintro ⟨version, manifests, root, hversion, hmembers, hroot, hall⟩
  obtain rfl : ['1'] = version := Except.ok.inj (loadVersion_heir.symm.trans hversion)
  obtain rfl : ["./a/Cargo.toml".toList] = manifests := Except.ok.inj (listMemberManifests_heir.symm.trans hmembers)
  obtain ⟨manifest, hmanifest, hrequirements⟩ := hall _ (List.mem_singleton_self _)
  have hdenoted : denotedIn heirConfig ((release heirConfig (Executor.scripted [])).runIn heirWorld).2
      "./a/Cargo.toml".toList = some [some ['0'], some ['1']] := by decide +kernel
  simp only [denotedIn, hroot, hmanifest, Except.toOption, Option.bind_eq_bind, Option.bind_some,
    Option.some.injEq] at hdenoted
  have hstale : some ['0'] ∈ (manifest.document.requirements heirConfig.family).map
      fun (name, n) => root.document.denoted? name n := hdenoted ▸ List.mem_cons_self
  obtain ⟨⟨name, n⟩, hmem, hzero⟩ := List.mem_map.mp hstale
  have hone := (hrequirements name n hmem).2 _ hzero
  exact absurd hone (by decide)

theorem release_dotted :
    ((release { setVersion := true } (Executor.scripted [])).runIn overtakenWorld).1 = .ok () :=
  eq_ok_of_isOk (by decide +kernel)

theorem not_resolved_dotted {version : Text} {manifests : List Path} {root root' : Manifest} :
    ¬Resolved { setVersion := true } overtakenWorld
      ((release { setVersion := true } (Executor.scripted [])).runIn overtakenWorld).2 version manifests root
      root' := by
  intro h
  have hlist : ((listMemberManifests defaultWorkspace).runIn overtakenWorld).1 = .ok ["./a/Cargo.toml".toList] := rfl
  have hload : ((Manifest.load "./a/Cargo.toml".toList).runIn
      ((release { setVersion := true } (Executor.scripted [])).runIn overtakenWorld).2).1.isOk = false := by
    decide +kernel
  obtain rfl : ["./a/Cargo.toml".toList] = manifests := Except.ok.inj (hlist.symm.trans h.members)
  obtain ⟨manifest, hread, -⟩ := h.denoted _ (List.mem_singleton_self _)
  rw [hread] at hload
  exact Bool.noConfusion hload

/-- One that inherits keeps the old version, and a member's manifest may not be readable at all unless what is
printed for it reads back. -/
theorem release_requirements_stale :
    (¬∀ (c : Config) (executor : Executor Unit) (w : World Unit), c.setVersion = true → c.dryRun = false →
      executor.Spares c w → executor.SparesRoot c w → FaithfulMembers c w →
      ((release c executor).runIn w).1 = .ok () → AllCurrent c w ((release c executor).runIn w).2) ∧
    ¬∀ (c : Config) (executor : Executor Unit) (w : World Unit), c.setVersion = true → c.dryRun = false →
      executor.Spares c w → executor.SparesRoot c w → ((release c executor).runIn w).1 = .ok () →
      ∃ version manifests root root', Resolved c w ((release c executor).runIn w).2 version manifests root root' := by
  constructor
  · intro h
    have hcurrent := h heirConfig (Executor.scripted []) heirWorld rfl rfl (spares_scripted [] _ _)
      (fun _ _ _ => rfl) faithfulMembers_heir release_heir
    exact not_allCurrent_heir hcurrent
  · intro h
    obtain ⟨_, _, _, _, hresolved⟩ := h { setVersion := true } (Executor.scripted []) overtakenWorld rfl rfl
      (spares_scripted [] _ _) (fun _ _ _ => rfl) release_dotted
    exact not_resolved_dotted hresolved

end WorkspaceRelease

import WorkspaceRelease.Executor
import WorkspaceRelease.Proofs.Release.DryRun
import WorkspaceRelease.Proofs.Release.Frame
import WorkspaceRelease.Proofs.Release.Phases
import WorkspaceRelease.Proofs.Stamping.Effect

/-!
What a release that ends well leaves in the manifests of its members.
-/

namespace WorkspaceRelease

open Toml

variable {σ : Type}

/-- The requirements of the family among some entries are the version, or ask for it where they are tables of
their own. -/
def Current (lead version : Text) (es : List Entry) : Prop :=
  ∀ k n, (k, n) ∈ es → lead <+: k.name →
    (∀ s, n.string? = some s → s = version) ∧
    ∀ form inner, n = .table form inner →
      (Entries.find? "workspace".toList inner).bind Node.boolean? ≠ some true →
      (Entries.find? "version".toList inner).bind Node.string? = some version

def SectionsCurrent (lead version : Text) (es : List Entry) : Prop :=
  ∀ k form inner, (k, .table form inner) ∈ es → k.name ∈ Stamp.dependencySections →
    Current lead version inner

structure Released (lead version : Text) (d : Document) : Prop where
  package : ∃ form inner, Entries.find? "package".toList d.entries = some (.table form inner) ∧
    (Entries.find? "version".toList inner).bind Node.string? = some version
  sections : SectionsCurrent lead version d.entries
  targets : ∀ k form ts, (k, .table form ts) ∈ d.entries → k.name = "target".toList →
    ∀ k' form' es, (k', .table form' es) ∈ ts → SectionsCurrent lead version es

namespace Stamp

variable {exact : Bool} {lead version : Text}

theorem IsVersion.string? {n : Node} (h : IsVersion exact version n) : n.string? = some version := by
  obtain ⟨written, pad, rfl, -⟩ := h
  rfl

theorem SectionsAsk.current {es : List Entry} (h : SectionsAsk exact lead version es)
    (hes : distinctEntries es) : SectionsCurrent lead version es := by
  intro key form inner hsection hname k n hmem hlead
  have hasks := h key.name hname form inner (distinctEntries_mem hes hsection).1 k n hmem hlead
  constructor
  · intro s hs
    match n, hs, hasks with
    | .scalar (.string _) _ _, hs, hasks => exact Option.some.inj (hs.symm.trans (IsVersion.string? hasks))
  · rintro form' es' rfl hworkspace
    have hinherits : inherits es' = false := decide_eq_false hworkspace
    obtain ⟨v, hv, hversion⟩ := hasks hinherits
    exact (congrArg (Option.bind · Node.string?) hv).trans hversion.string?

theorem Stamped.released {d : Document} (h : Stamped exact lead version d.entries)
    (hd : distinctEntries d.entries) : Released lead version d where
  package := by
    obtain ⟨form, inner, n, hfind, hn, hversion⟩ := h.package
    exact ⟨form, inner, hfind, (congrArg (Option.bind · Node.string?) hn).trans hversion.string?⟩
  sections := h.sections.current hd
  targets := by
    intro k form ts hts hk k' form' es hmem
    obtain ⟨hfind, hdistinct⟩ := distinctEntries_mem hd hts
    exact (h.targets form ts (hk ▸ hfind) k' form' es hmem).current (distinctEntries_mem hdistinct hmem).2

end Stamp

theorem release_stamped {c : Config} (executor : Executor σ) {w : World σ} (hset : c.setVersion = true)
    (hreal : c.dryRun = false) (hok : ((release c executor).runIn w).1 = .ok ()) :
    ∃ version order manifests n es,
      dataOf w.files w.cwd c.workspace = .ok (version, order) ∧
      membersOf w.files w.cwd c.workspace = .ok manifests ∧
      (stampFiles version c.family false w.cwd w.files manifests).1 = .ok n ∧
      (release c executor).runIn w = (commandStage c executor version order).runIn
        ({ w with files := (stampFiles version c.family false w.cwd w.files manifests).2 }.record es) := by
  cases hdata : dataOf w.files w.cwd c.workspace with
  | error e =>
    obtain ⟨_, -, hrun⟩ := runIn_release_error c executor hdata
    simp [hrun] at hok
  | ok data =>
    obtain ⟨version, order⟩ := data
    have hact : c.hasAction = true := by simp [Config.hasAction, hset]
    obtain ⟨opening, stamping, -, -, hrun⟩ := runIn_release_active executor hdata hact
    cases hmembers : membersOf w.files w.cwd c.workspace with
    | error e => simp [hrun, stampOutcome, hset, stampWorkspace, hmembers] at hok
    | ok manifests =>
      have hout : stampOutcome c version w.cwd w.files =
          ((stampFiles version c.family false w.cwd w.files manifests).1.map fun _ => (),
            (stampFiles version c.family false w.cwd w.files manifests).2) := by
        simp only [stampOutcome, hset, ↓reduceIte, stampWorkspace, hmembers, hreal]
      rw [hout] at hrun
      cases hn : (stampFiles version c.family false w.cwd w.files manifests).1 with
      | error e => simp [hrun, hn, Except.map] at hok
      | ok n =>
        refine ⟨version, order, manifests, n, opening ++ stamping, rfl, rfl, hn, ?_⟩
        rw [hrun, hn]
        rfl

/-- The commands of a release leave the manifests of the members as they find them. -/
def Executor.Spares (executor : Executor σ) (c : Config) (w : World σ) : Prop :=
  ∀ manifests, ((listMemberManifests c.workspace).runIn w).1 = .ok manifests →
    ∀ i s files, ∀ m ∈ manifests, (executor i s files).files.readText w.cwd m = files.readText w.cwd m

structure Postcondition (c : Config) (w after : World σ) (version : Text) (manifests : List Path)
    (events : List Event) : Prop where
  trimmed : ∃ t, w.files.readText w.cwd (c.workspace.join versionFile) = .ok t ∧ t.trim = version
  nonblank : version ≠ []
  members : ((listMemberManifests c.workspace).runIn w).1 = .ok manifests
  released : ∀ m ∈ manifests, ∃ manifest, ((Manifest.load m).runIn after).1 = .ok manifest ∧
    Released c.family version manifest.document
  tagged : c.tag = true → [.commit version, .tag version] <+: commandsIn events

theorem release_postcondition {c : Config} {executor : Executor σ} {w : World σ} (hset : c.setVersion = true)
    (hreal : c.dryRun = false) (hexecutor : executor.Spares c w) (hcodec : FaithfulMembers c w)
    (hok : ((release c executor).runIn w).1 = .ok ()) :
    ∃ version manifests events, ((release c executor).runIn w).2.trace = w.trace ++ events ∧
      Postcondition c w ((release c executor).runIn w).2 version manifests events := by
  obtain ⟨version, order, manifests, n, es, hdata, hmembers, hn, hrun⟩ := release_stamped executor hset hreal hok
  obtain ⟨hv, -⟩ := dataOf_eq_ok.mp hdata
  obtain ⟨t, ht, htrim, hne⟩ := exists_of_versionOf_eq_ok hv
  obtain ⟨_, -, hlist⟩ := runIn_listMemberManifests c.workspace w
  have hmanifests : ((listMemberManifests c.workspace).runIn w).1 = .ok manifests := by rw [hlist]; exact hmembers
  obtain ⟨opening, stamping, dispatching, htrace, hcourse⟩ := release_course c executor hdata
  refine ⟨version, manifests, _, htrace, ⟨t, ht, htrim⟩, hne, hmanifests, fun m hm => ?_, fun htag => ?_⟩
  · have hstamp := stampFiles_of_faithful (hcodec.faithful hv hmembers)
    have hall : accepted version c.family w.files w.cwd manifests = manifests := by
      have hverdict := hstamp.verdict
      rw [hn] at hverdict
      rw [accepted_eq_take, (verdict_eq_ok manifests).mp hverdict.symm, List.take_length]
    obtain ⟨l, hl, t', s, ht', hs, hstamps⟩ := hstamp.settles m (by rwa [hall])
    have hfaithful := hcodec.faithful hv hmembers m hm t' (FileTree.readText_eq_ok.mpr ⟨l, hl, ht'⟩)
    obtain ⟨d, hd, hstamped⟩ := hfaithful.stamped hstamps
    have hread : (stampFiles version c.family false w.cwd w.files manifests).2.readText w.cwd m = .ok s :=
      FileTree.readText_eq_ok.mpr ⟨l, (hstamp.rewritten.resolve_eq w.cwd m).trans hl, hs⟩
    have hkeeps : (commandStage c executor version order).Keeps fun files => files.readText w.cwd m = .ok s :=
      keeps_commandStage (fun i s files hfiles => (hexecutor manifests hmanifests i s files m hm).trans hfiles)
        c version order
    obtain ⟨hkept, hcwd⟩ := hkeeps
      (World.record { w with files := (stampFiles version c.family false w.cwd w.files manifests).2 } es) hread
    refine ⟨⟨m, s, d⟩, ?_, hstamped.released (distinct_read hd)⟩
    rw [hrun, runIn_load, hcwd, World.record_cwd, hkept]
    simp only [hd]
  · have hcommands := hcourse.complete hok
    rw [hreal] at hcommands
    rw [commandsIn_append, commandsIn_append, hcourse.opens.2, hcourse.stampsOnly, hcommands]
    simp only [Bool.false_eq_true, ↓reduceIte, Config.commands, htag, List.nil_append]
    exact List.prefix_append _ _

theorem spares_scripted (failures : List (Text × Failure)) (c : Config) (w : World Unit) :
    (Executor.scripted failures).Spares c w := fun _ _ _ _ _ _ _ => rfl

theorem release_postcondition_plain :
    ∃ version manifests events,
      ((release plainConfig (Executor.scripted [])).runIn plainWorld).2.trace = plainWorld.trace ++ events ∧
      Postcondition plainConfig plainWorld ((release plainConfig (Executor.scripted [])).runIn plainWorld).2
        version manifests events :=
  release_postcondition rfl rfl (spares_scripted [] _ _) faithfulMembers_plain (eq_ok_of_isOk (by decide +kernel))

/-- The stamp gives the dependency a header of its own, which is printed before the dotted key that it hangs
from and keeps that key from being read. -/
def overtakenManifest : Text :=
  ("[package]\nname = \"a\"\n[target.w.z]\n[target]\nx.dependencies.y = \"1\"\n" ++
    "[target.x.dependencies.enalang_a.foo]\n").toList

def overtakenWorld : World Unit :=
  .fresh { entries :=
    [(["Cargo.toml".toList], .file (.text "[workspace]\nmembers = [\"a\"]\n".toList)),
      (["version.txt".toList], .file (.text "1.0.0\n".toList)),
      (["publish-order.txt".toList], .file (.text "a\n".toList)),
      (["a".toList], .directory),
      (["a".toList, "Cargo.toml".toList], .file (.text overtakenManifest))] }

theorem release_postcondition_unread :
    ¬∀ (c : Config) (executor : Executor Unit) (w : World Unit), c.setVersion = true → c.dryRun = false →
      executor.Spares c w → ((release c executor).runIn w).1 = .ok () →
      ∃ version manifests events, ((release c executor).runIn w).2.trace = w.trace ++ events ∧
        Postcondition c w ((release c executor).runIn w).2 version manifests events := by
  intro h
  have hok : ((release { setVersion := true } (Executor.scripted [])).runIn overtakenWorld).1 = .ok () :=
    eq_ok_of_isOk (by decide +kernel)
  have hmembers : ((listMemberManifests defaultWorkspace).runIn overtakenWorld).1 = .ok ["./a/Cargo.toml".toList] := rfl
  have hload : ((Manifest.load "./a/Cargo.toml".toList).runIn
      ((release { setVersion := true } (Executor.scripted [])).runIn overtakenWorld).2).1.isOk = false := by
    decide +kernel
  obtain ⟨version, manifests, events, -, hpost⟩ := h _ _ _ rfl rfl (spares_scripted [] _ _) hok
  obtain rfl : ["./a/Cargo.toml".toList] = manifests := Except.ok.inj (hmembers.symm.trans hpost.members)
  obtain ⟨manifest, hread, -⟩ := hpost.released _ (List.mem_singleton_self _)
  rw [hread] at hload
  exact Bool.noConfusion hload

end WorkspaceRelease

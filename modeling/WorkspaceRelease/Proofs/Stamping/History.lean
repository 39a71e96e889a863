import WorkspaceRelease.Proofs.Manifest.Agreement
import WorkspaceRelease.Proofs.Manifest.Distinct
import WorkspaceRelease.Proofs.Manifest.Places
import WorkspaceRelease.Proofs.Stamping.Outcome

/-!
A manifest that is stamped with one version after another. The file is what the last version alone makes of it, and
each stamp counts the same requirements.
-/

namespace WorkspaceRelease

open Toml Stamp

variable {σ : Type}

/-- What a stamp of the text prints reads back to the same keys and values, with the same layout. -/
def FaithfulLayout (lead version t : Text) : Prop :=
  ∀ d stamped, Document.read t = .ok d → stampDocument? version lead d = some stamped → stamped.KeepsLayout

section Document

variable {lead earlier later : Text} {d e : Document}

theorem stampVersions_override :
    (stampVersions lead later).override (stampVersions lead earlier) = stampVersions lead later := by
  have hfamily (name : Text) : ((stampVersions lead later).family name).or ((stampVersions lead earlier).family name) =
      (stampVersions lead later).family name := by
    simp only [stampVersions]
    split <;> rfl
  simp only [Versions.override, hfamily]
  rfl

theorem layout_carry (hd : distinctEntries d.entries) (hv : Versioned lead d.data) (version : Text) :
    ((stampVersions lead version).carry d).layout =
      d.layout.map (Piece.overwrite (fun path => decide (VersionSlot lead d.data path)) version) := by
  rw [carry_eq_overwrite hd hv, Document.layout_overwrite]

theorem render_carry_of_layout (hd : distinctEntries d.entries) (he : distinctEntries e.entries)
    (hv : Versioned lead d.data) (hagree : Data.Agree d.data e.data) (hlayout : e.layout = d.layout) (version : Text) :
    ((stampVersions lead version).carry e).render = ((stampVersions lead version).carry d).render := by
  have hslots : (fun path => decide (VersionSlot lead e.data path)) =
      fun path => decide (VersionSlot lead d.data path) := by
    funext path
    exact decide_eq_decide.mpr (versionSlot_agree hagree).symm
  rw [← Document.piecesText_layout, ← Document.piecesText_layout, layout_carry he (hv.agree hagree), layout_carry hd hv,
    hlayout, hslots]

theorem packaged_agree (h : Packaged d.entries) (hagree : Document.Agree false d e) : Packaged e.entries := by
  obtain ⟨form, inner, hfind⟩ := h
  obtain ⟨n, hn, hpackage⟩ := Node.Agree.find? hagree hfind
  obtain ⟨form', inner', rfl⟩ := hpackage.table
  exact ⟨form', inner', hn⟩

theorem render_carry_again (hd : distinctEntries d.entries) (h : Packaged d.entries) (he : distinctEntries e.entries)
    (hagree : Document.Agree false ((stampVersions lead earlier).carry d) e)
    (hlayout : e.layout = ((stampVersions lead earlier).carry d).layout) (later : Text) :
    ((stampVersions lead later).carry e).render = ((stampVersions lead later).carry d).render := by
  have hstamp := stampDocument?_of_packaged h earlier lead
  have hversioned := (stamped_stampDocument hstamp).versioned
  have hdistinct := distinctEntries_carry hd (stampVersions lead earlier)
  rw [render_carry_of_layout hdistinct he hversioned hagree.data hlayout later, Versions.carry_carry h,
    stampVersions_override]

theorem familyCount_again (hd : distinctEntries d.entries) (he : distinctEntries e.entries)
    (hagree : Document.Agree false ((stampVersions lead earlier).carry d) e) :
    familyCount lead e.entries = familyCount lead d.entries := by
  have hdistinct := distinctEntries_carry hd (stampVersions lead earlier)
  have hcount : familyCount lead ((stampVersions lead earlier).carry d).entries = familyCount lead d.entries := by
    rw [familyCount, Versions.familyOutcomes_carry]
    rfl
  rw [← hcount]
  exact (familyCount_agree hdistinct he hagree).symm

end Document

section File

variable {path : Path} {lead earlier : Text} {w w₁ : World σ} {o₁ : StampOutcome}

theorem applyVersion_forgets (hrun : (applyVersion path earlier lead false).runIn w = (.ok o₁, w₁))
    (hcodec : ∀ t, w.files.readText w.cwd path = .ok t → FaithfulLayout lead earlier t) (later : Text) :
    ∃ w₂ w₁₂, (∀ l, w₁₂.files.lookup l = w₂.files.lookup l) ∧
      ((∃ o₂ o₁₂, (applyVersion path later lead false).runIn w = (.ok o₂, w₂) ∧
          (applyVersion path later lead false).runIn w₁ = (.ok o₁₂, w₁₂) ∧
          o₂.dependencies = o₁.dependencies ∧ o₁₂.dependencies = o₁.dependencies) ∨
        ∃ l cause, w.files.resolve w.cwd path = .ok l ∧ w.files.writeRefusal? l = some cause ∧ o₁.changed = false ∧
          (applyVersion path later lead false).runIn w = (.error (.manifestWrite path cause), w₂) ∧
          (applyVersion path later lead false).runIn w₁ = (.error (.manifestWrite path cause), w₁₂)) := by
  obtain ⟨t, d, hread, hdoc, hpackage⟩ := read_of_applyVersion hrun
  obtain ⟨l, hl, ht, hfirst⟩ := concludes_of_applyVersion hread hdoc hrun
  obtain ⟨e, he, hagree, hlayout⟩ := hcodec t hread d _ hdoc (stampDocument?_of_packaged hpackage earlier lead)
  have hd : distinctEntries d.entries := distinct_read hdoc
  have hdistinct : distinctEntries e.entries := distinct_read he
  have hcwd : w₁.cwd = w.cwd := by rw [← applyVersion_cwd path earlier lead false w, hrun]
  have hresolve : w₁.files.resolve w₁.cwd path = .ok l := by rw [hcwd, (hfirst.rewritten ht).resolve_eq, hl]
  have hread₁ : w₁.files.readText w₁.cwd path = .ok ((stampVersions lead earlier).carry d).render :=
    FileTree.readText_eq_ok.mpr ⟨l, hresolve, (hfirst.holds ht).textAt ht⟩
  obtain ⟨l₂, hl₂, -, hdirect⟩ := applyVersion_concludes hread hdoc hpackage later lead
  obtain ⟨l₁₂, hl₁₂, -, hsecond⟩ := applyVersion_concludes hread₁ he
    (packaged_agree (Versions.packaged_carry hpackage _) hagree) later lead
  obtain rfl : l = l₂ := Except.ok.inj (hl.symm.trans hl₂)
  obtain rfl : l = l₁₂ := Except.ok.inj (hresolve.symm.trans hl₁₂)
  -- the second stamp prints what the direct one prints, and counts as much
  rw [render_carry_again hd hpackage hdistinct hagree hlayout later, familyCount_again hd hdistinct hagree] at hsecond
  have hcount : familyCount lead d.entries = o₁.dependencies := hfirst.count_eq.symm
  obtain ⟨hfiles, hend⟩ := hfirst.again ht hdirect hsecond
  refine ⟨_, _, hfiles, ?_⟩
  rcases hend with ⟨changed, changed', h₂, h₁₂⟩ | ⟨cause, hrefusal, hchanged, h₂, h₁₂⟩
  · exact .inl ⟨_, _, Prod.ext h₂ rfl, Prod.ext h₁₂ rfl, hcount, hcount⟩
  · exact .inr ⟨l, cause, hl, hrefusal, hchanged, Prod.ext h₂ rfl, Prod.ext h₁₂ rfl⟩

end File

section Sparse

theorem FaithfulLayout.of_read {lead version t : Text} {d stamped e : Document} (hread : Document.read t = .ok d)
    (hstamp : stampDocument? version lead d = some stamped) (hagain : Document.read stamped.render = .ok e)
    (hdata : stamped.data = e.data) (hlayout : e.layout = stamped.layout) : FaithfulLayout lead version t := by
  intro d' stamped' hd' hstamp'
  obtain rfl : d = d' := Except.ok.inj (hread.symm.trans hd')
  obtain rfl : stamped = stamped' := Option.some.inj (hstamp.symm.trans hstamp')
  exact ⟨e, hagain, Node.agree_of_data hdata, hlayout⟩

/-- A manifest without versions: each of them is inserted, below a header, between braces and by a dotted key. -/
def sparseManifest : Text :=
  "[package]\n[dependencies]\nena-a = \x7b path = 'a' \x7d\nena-b.path = 'b'\n".toList

def sparseDocument (behind : Text) (braces tables : List Entry) : Document :=
  ⟨[bareHeader 1 "package" tables,
    bareHeader 2 "dependencies"
      [(bareKey "ena-a" [' '],
          bracedNode [] ((spacedKey "path" [' '] [' '], literalNode ['a'] [' '] behind) :: braces)),
        dottedEntry "ena-b" ((bareKey "path" [' '], literalNode ['b'] [' '] []) :: tables)]], []⟩

set_option maxRecDepth 10000 in
theorem faithfulLayout_sparse : FaithfulLayout "ena".toList ['1'] sparseManifest := by
  let before : Document := sparseDocument [' '] [] []
  let again : Document := sparseDocument []
    [(spacedKey "version" [' '] [' '], quotedNode ['1'] [' '] [' '])] [lineEntry "version" ['1']]
  have hread : Document.read sparseManifest = .ok before := rfl
  have hstamp : stampDocument? ['1'] "ena".toList before = some ((stampVersions "ena".toList ['1']).carry before) :=
    stampDocument?_of_packaged ⟨_, _, rfl⟩ _ _
  have hprint : ((stampVersions "ena".toList ['1']).carry before).render =
      ("[package]\nversion = \"1\"\n[dependencies]\nena-a = \x7b path = 'a', version = \"1\" \x7d\n" ++
        "ena-b.path = 'b'\nena-b.version = \"1\"\n").toList := by
    decide +kernel
  have hagain : Document.read ((stampVersions "ena".toList ['1']).carry before).render = .ok again := by
    rw [hprint]
    rfl
  have hlayout : again.layout = ((stampVersions "ena".toList ['1']).carry before).layout := by decide +kernel
  exact .of_read hread hstamp hagain rfl hlayout

theorem applyVersion_forgets_sparse :
    ((applyVersion manifestFile ['1'] "ena".toList false).runIn (loneWorld sparseManifest)).1.isOk = true ∧
      (∀ t, (loneWorld sparseManifest).files.readText (loneWorld sparseManifest).cwd manifestFile = .ok t →
        FaithfulLayout "ena".toList ['1'] t) ∧
      ∃ o₁ w₁ o₂ w₂ o₁₂ w₁₂,
        (applyVersion manifestFile ['1'] "ena".toList false).runIn (loneWorld sparseManifest) = (.ok o₁, w₁) ∧
        (applyVersion manifestFile ['2', '\n'] "ena".toList false).runIn (loneWorld sparseManifest) = (.ok o₂, w₂) ∧
        (applyVersion manifestFile ['2', '\n'] "ena".toList false).runIn w₁ = (.ok o₁₂, w₁₂) ∧
        (∀ l, w₁₂.files.lookup l = w₂.files.lookup l) ∧
        o₂.dependencies = o₁.dependencies ∧ o₁₂.dependencies = o₁.dependencies := by
  have hcodec (t : Text) (ht : (loneWorld sparseManifest).files.readText (loneWorld sparseManifest).cwd manifestFile =
      .ok t) : FaithfulLayout "ena".toList ['1'] t := by
    obtain rfl : sparseManifest = t := Except.ok.inj ((readText_lone sparseManifest).symm.trans ht)
    exact faithfulLayout_sparse
  have hdoc : Document.read sparseManifest = .ok (sparseDocument [' '] [] []) := rfl
  obtain ⟨changed, w₁, hrun, -⟩ := applyVersion_lone hdoc ⟨_, _, rfl⟩ ['1'] "ena".toList
  obtain ⟨w₂, w₁₂, hfiles, hend⟩ := applyVersion_forgets hrun hcodec ['2', '\n']
  rcases hend with ⟨o₂, o₁₂, hdirect, hsecond, hcounts⟩ | ⟨l, cause, hl, hrefusal, -⟩
  · exact ⟨by rw [hrun]; rfl, hcodec, _, w₁, o₂, w₂, o₁₂, w₁₂, hrun, hdirect, hsecond, hfiles, hcounts⟩
  · obtain rfl : [manifestFile] = l := Except.ok.inj ((resolve_lone _).symm.trans hl)
    simp [writeRefusal?_lone] at hrefusal

end Sparse

end WorkspaceRelease

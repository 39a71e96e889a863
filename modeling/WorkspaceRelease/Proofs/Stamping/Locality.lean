import WorkspaceRelease.Proofs.Manifest.Replacement
import WorkspaceRelease.Proofs.Stamping.Outcome
import WorkspaceRelease.Proofs.Toml.Values

/-!
A stamp that inserts nothing. The new text of the file is the old one with the strings of the version replaced,
piece by piece.
-/

namespace WorkspaceRelease

open Toml Stamp

variable {σ : Type}

/-- The second text is the first with the strings at some places replaced. Each of them is printed once, with the
text that it has in the document. -/
structure Replaced (slot : List Step → Prop) [DecidablePred slot] (version : Text) (d : Document)
    (before after : Text) : Prop where
  before : before = piecesText d.pieces
  after : after = piecesText (d.pieces.map (Piece.overwrite (fun path => decide (slot path)) version))
  strings : ∀ path, slot path → ∃ s written pad, d.root.at? path = some (.scalar (.string s) written pad) ∧
    textsAt path (values d.pieces) = [written]

variable {path : Path} {version lead t : Text} {d : Document} {w : World σ}

theorem replaced_carry (hdoc : Document.read t = .ok d) (hprint : d.render = t) (hv : Versioned lead d.data) :
    Replaced (VersionSlot lead d.data) version d t ((stampVersions lead version).carry d).render where
  before := by rw [Document.piecesText_pieces, hprint]
  after := by rw [← pieces_carry (distinct_read hdoc) hv, Document.piecesText_pieces]
  strings := by
    intro slot hslot
    obtain ⟨s, hs⟩ := hv slot hslot
    have hat : (d.root.at? slot).map Node.data = some (.string s) := (at?_data d.root slot).symm.trans hs
    obtain ⟨n, hn, hdata⟩ := Option.map_eq_some_iff.mp hat
    obtain ⟨written, pad, rfl⟩ := data_eq_string.mp hdata
    have htext : d.root.textAt? slot = some written := by rw [Node.textAt?, hn]
    exact ⟨s, written, pad, hn, by rw [textsAt_document hdoc, htext]; rfl⟩

theorem applyVersion_replaces (hread : w.files.readText w.cwd path = .ok t) (hdoc : Document.read t = .ok d)
    (hprint : d.render = t) (hv : Versioned lead d.data) (version : Text) : ∃ after l s,
      w.files.resolve w.cwd path = .ok l ∧ Replaced (VersionSlot lead d.data) version d t s ∧
      ((∃ o, (applyVersion path version lead false).runIn w = (.ok o, after) ∧
          ∀ k, after.files.lookup k = if k = l then some (.file (.text s)) else w.files.lookup k) ∨
        ∃ cause, w.files.writeRefusal? l = some cause ∧ after.files = w.files ∧
          (applyVersion path version lead false).runIn w = (.error (.manifestWrite path cause), after)) := by
  obtain ⟨l, hl, ht, hconcludes⟩ := applyVersion_concludes hread hdoc hv.packaged version lead
  refine ⟨((applyVersion path version lead false).runIn w).2, l, _, hl, replaced_carry hdoc hprint hv, ?_⟩
  rcases hconcludes.holds_or_refused ht with ⟨changed, hresult, hholds⟩ | ⟨cause, hrefusal, hfiles, hresult⟩
  · exact .inl ⟨_, Prod.ext hresult rfl, hholds.lookup⟩
  · exact .inr ⟨cause, hrefusal, hfiles, Prod.ext hresult rfl⟩

/-- Versions below a header with a comment, between braces, by a dotted key, and alone. -/
def pinnedManifest : Text :=
  ("[package]\nversion = '0' # one\n[dependencies]\nena-a = \x7b version = \"1\" \x7d\nena-b.version = \"2\"\n" ++
    "ena-c = \"3\"\nother = \"4\"\n").toList

def pinnedDocument : Document :=
  ⟨[bareHeader 1 "package" [(bareKey "version" [' '], literalNode ['0'] [' '] " # one".toList)],
    bareHeader 2 "dependencies"
      [(bareKey "ena-a" [' '], bracedNode [] [(spacedKey "version" [' '] [' '], quotedNode ['1'] [' '] [' '])]),
        dottedEntry "ena-b" [lineEntry "version" ['2']], lineEntry "ena-c" ['3'], lineEntry "other" ['4']]], []⟩

set_option maxRecDepth 10000 in
theorem applyVersion_replaces_pinned :
    (loneWorld pinnedManifest).files.readText (loneWorld pinnedManifest).cwd manifestFile = .ok pinnedManifest ∧
      Document.read pinnedManifest = .ok pinnedDocument ∧ pinnedDocument.render = pinnedManifest ∧
      Versioned "ena".toList pinnedDocument.data ∧ ∃ o after s,
        (applyVersion manifestFile ['5', '\''] "ena".toList false).runIn (loneWorld pinnedManifest) = (.ok o, after) ∧
        (∀ k, after.files.lookup k = if k = [manifestFile] then some (.file (.text s))
          else (loneWorld pinnedManifest).files.lookup k) ∧
        Replaced (VersionSlot "ena".toList pinnedDocument.data) ['5', '\''] pinnedDocument pinnedManifest s := by
  have hread := readText_lone pinnedManifest
  have hdoc : Document.read pinnedManifest = .ok pinnedDocument := rfl
  have hprint : pinnedDocument.render = pinnedManifest := rfl
  have hv : Versioned "ena".toList pinnedDocument.data := by decide
  refine ⟨hread, hdoc, hprint, hv, ?_⟩
  obtain ⟨after, l, s, hl, hreplaced, hend⟩ := applyVersion_replaces hread hdoc hprint hv ['5', '\'']
  obtain rfl : [manifestFile] = l := Except.ok.inj ((resolve_lone _).symm.trans hl)
  rcases hend with ⟨o, hrun, hfiles⟩ | ⟨cause, hrefusal, -⟩
  · exact ⟨o, after, s, hrun, hfiles, hreplaced⟩
  · simp [writeRefusal?_lone] at hrefusal

end WorkspaceRelease

import WorkspaceRelease.Proofs.Manifest.Comments
import WorkspaceRelease.Proofs.Stamping.Outcome

/-!
What the stamp of a file does to its comments. Those around a version that is a value stay, as do all others; those
of a version that is a table by dotted keys or headers are lost with the table.
-/

namespace WorkspaceRelease

open Toml Stamp

variable {σ : Type}

/-- The document has all comments of the text, in their order. -/
def StoresComments (t : Text) (d : Document) : Prop :=
  Outline.comments t.length t = (comments d.pieces).map Comment.text

instance (t : Text) (d : Document) : Decidable (StoresComments t d) := inferInstanceAs (Decidable (_ = _))

/-- The second text prints a document that has the comments of the first in their order, but for those within values at
some places. -/
structure CommentsSurvive (slot : List Step → Prop) [DecidablePred slot] (d stamped : Document)
    (before after : Text) : Prop where
  before : StoresComments before d
  prints : after = piecesText stamped.pieces
  order : CommentsKeep (outside slot) (comments d.pieces) (comments stamped.pieces)
  occurrence : ∀ c ∈ comments d.pieces, outside slot c.within = true → c.text <:+: after

variable {path : Path} {version lead t : Text} {d : Document} {w after : World σ} {o : StampOutcome}

theorem commentsSurvive_carry (hdoc : Document.read t = .ok d) (hstored : StoresComments t d)
    (hpackage : Packaged d.entries) (hplain : PlainVersions lead d) :
    CommentsSurvive (VersionSlot lead d.data) d ((stampVersions lead version).carry d) t
      ((stampVersions lead version).carry d).render := by
  have hkept : CommentsKeep _ _ (comments ((stampVersions lead version).carry d).pieces) :=
    keeps_carry (distinct_read hdoc) hpackage hplain
  have hprint := Document.piecesText_pieces ((stampVersions lead version).carry d)
  refine ⟨hstored, hprint.symm, hkept, fun c hc houtside => ?_⟩
  rw [← hprint]
  exact infix_of_mem_comments (hkept.subset (List.mem_filter.mpr ⟨hc, houtside⟩))

theorem applyVersion_keepsComments (hread : w.files.readText w.cwd path = .ok t) (hdoc : Document.read t = .ok d)
    (hstored : StoresComments t d) (hplain : PlainVersions lead d)
    (hrun : (applyVersion path version lead false).runIn w = (.ok o, after)) :
    ∃ l s, w.files.resolve w.cwd path = .ok l ∧ after.files.lookup l = some (.file (.text s)) ∧
      CommentsSurvive (VersionSlot lead d.data) d ((stampVersions lead version).carry d) t s := by
  obtain ⟨t', d', hread', hdoc', hpackage⟩ := read_of_applyVersion hrun
  obtain rfl : t = t' := Except.ok.inj (hread.symm.trans hread')
  obtain rfl : d = d' := Except.ok.inj (hdoc.symm.trans hdoc')
  obtain ⟨l, hl, ht, hconcludes⟩ := concludes_of_applyVersion hread hdoc hrun
  exact ⟨l, _, hl, by rw [(hconcludes.holds ht).lookup, if_pos rfl], commentsSurvive_carry hdoc hstored hpackage hplain⟩

/-- Comments on lines of their own, behind headers and values, between braces and within a version. -/
def commentedManifest : Text :=
  ("# top\n[package] # head\nversion = '0' # one\n[dependencies]\nena-a = \x7b path = 'a' # two\n\x7d\n" ++
    "ena-b = \x7b version = [ # lost\n] \x7d # three\n# end\n").toList

def commentedDocument : Document :=
  let version : Entry := (spacedKey "version" [' '] [' '], .array [] false " # lost\n".toList ⟨some [' '], some [' ']⟩)
  ⟨[(bareKey "package" [], .table (.headed 1 ⟨some "# top\n".toList, some " # head".toList⟩)
      [(bareKey "version" [' '], literalNode ['0'] [' '] " # one".toList)]),
    bareHeader 2 "dependencies"
      [(bareKey "ena-a" [' '],
          bracedNode [] [(spacedKey "path" [' '] [' '], literalNode ['a'] [' '] " # two\n".toList)]),
        (bareKey "ena-b" [' '], bracedNode " # three".toList [version])]], "# end\n".toList⟩

set_option maxRecDepth 10000 in
theorem applyVersion_keepsComments_commented :
    (loneWorld commentedManifest).files.readText (loneWorld commentedManifest).cwd manifestFile =
        .ok commentedManifest ∧
      Document.read commentedManifest = .ok commentedDocument ∧ StoresComments commentedManifest commentedDocument ∧
      PlainVersions "ena".toList commentedDocument ∧ ∃ o after,
        (applyVersion manifestFile ['1'] "ena".toList false).runIn (loneWorld commentedManifest) = (.ok o, after) ∧
        ∃ l s, (loneWorld commentedManifest).files.resolve (loneWorld commentedManifest).cwd manifestFile = .ok l ∧
          after.files.lookup l = some (.file (.text s)) ∧
          CommentsSurvive (VersionSlot "ena".toList commentedDocument.data) commentedDocument
            ((stampVersions "ena".toList ['1']).carry commentedDocument) commentedManifest s := by
  have hdoc : Document.read commentedManifest = .ok commentedDocument := rfl
  have hstored : StoresComments commentedManifest commentedDocument := by decide +kernel
  have hplain : PlainVersions "ena".toList commentedDocument := by decide
  have hread := readText_lone commentedManifest
  obtain ⟨changed, after, hrun, -⟩ := applyVersion_lone hdoc ⟨_, _, rfl⟩ ['1'] "ena".toList
  exact ⟨hread, hdoc, hstored, hplain, _, after, hrun, applyVersion_keepsComments hread hdoc hstored hplain hrun⟩

/-- A version that is a table by a dotted key. -/
def inheritingManifest : Text :=
  "[package]\nname = \"a\"\nversion.workspace = true # keep\nedition = \"2021\" # last\n".toList

def inheritingDocument : Document :=
  ⟨[bareHeader 1 "package"
    [lineEntry "name" ['a'], dottedEntry "version" [(bareKey "workspace" [' '], trueNode " # keep".toList)],
      (bareKey "edition" [' '], quotedNode "2021".toList [' '] " # last".toList)]], []⟩

set_option maxRecDepth 10000 in
theorem applyVersion_dropsComment :
    StoresComments inheritingManifest inheritingDocument ∧
      Outline.comments inheritingManifest.length inheritingManifest = ["# keep".toList, "# last".toList] ∧
      ∃ o after s,
        (applyVersion manifestFile ['1'] "ena".toList false).runIn (loneWorld inheritingManifest) = (.ok o, after) ∧
        after.files.lookup [manifestFile] = some (.file (.text s)) ∧ ¬"# keep".toList <:+: s := by
  have hdoc : Document.read inheritingManifest = .ok inheritingDocument := rfl
  have hprint : ((stampVersions "ena".toList ['1']).carry inheritingDocument).render =
      "[package]\nname = \"a\"\nversion = \"1\"\nedition = \"2021\" # last\n".toList := by decide +kernel
  obtain ⟨changed, after, hrun, hholds⟩ := applyVersion_lone hdoc ⟨_, _, rfl⟩ ['1'] "ena".toList
  refine ⟨by decide +kernel, by decide +kernel, _, after, _, hrun, by rw [hholds.lookup, if_pos rfl], ?_⟩
  rw [hprint]
  decide +kernel

end WorkspaceRelease

import Mathlib.Logic.Relation
import WorkspaceRelease.Proofs.Manifest.Stamped
import WorkspaceRelease.Proofs.Stamping
import WorkspaceRelease.Proofs.Toml.Reading
import WorkspaceRelease.Proofs.Toml.Samples

/-!
Stamping the text of a manifest, once and again. A text that was printed for a stamped document is
stamped in its turn when it is read back.
-/

namespace WorkspaceRelease

open Toml

def Stamps (lead version t s : Text) : Prop :=
  ∃ d stamped, Document.read t = .ok d ∧ Stamp.stampDocument? version lead d = some stamped ∧
    s = stamped.render

/-- Whatever stamping the text prints, once or again, reads back to the same keys and values. -/
def Faithful (lead version t : Text) : Prop :=
  ∀ u d stamped, Relation.ReflTransGen (Stamps lead version) t u → Document.read u = .ok d →
    Stamp.stampDocument? version lead d = some stamped → stamped.Keeps

/-- What stamping the text prints reads back as it was printed. -/
def FaithfulText (lead version t : Text) : Prop :=
  ∀ d stamped, Document.read t = .ok d → Stamp.stampDocument? version lead d = some stamped →
    stamped.KeepsText

namespace Stamps

variable {lead version t s u : Text}

theorem stampedText {path : Path} : stampedText version lead path t = .ok s ↔ Stamps lead version t s := by
  unfold WorkspaceRelease.stampedText
  constructor
  · intro h
    cases hd : Document.read t with
    | error fault => simp [hd] at h
    | ok d =>
      cases hstamp : Stamp.stampDocument? version lead d with
      | none => simp [hd, hstamp] at h
      | some stamped =>
        simp only [hd, hstamp, Except.ok.injEq] at h
        exact ⟨d, stamped, hd, hstamp, h.symm⟩
  · rintro ⟨d, stamped, hd, hstamp, rfl⟩
    simp only [hd, hstamp]

theorem unique (h : Stamps lead version t s) (h' : Stamps lead version t u) : s = u := by
  obtain ⟨d, stamped, hd, hstamp, rfl⟩ := h
  obtain ⟨d', stamped', hd', hstamp', rfl⟩ := h'
  obtain rfl : d = d' := Except.ok.inj (hd.symm.trans hd')
  obtain rfl : stamped = stamped' := Option.some.inj (hstamp.symm.trans hstamp')
  rfl

end Stamps

namespace Stamp

variable {lead version : Text}

theorem stamped_stampDocument {d stamped : Document} (h : stampDocument? version lead d = some stamped) :
    Stamped true lead version stamped.entries := by
  obtain ⟨form, inner, hfind, rfl⟩ := stampDocument?_eq_some.mp h
  exact stamped_stampFamily (Entries.find?_replace_self hfind)

/-- The stamp goes into the package, the dependency sections and the targets, and nowhere else. -/
theorem find?_stampDocument {d stamped : Document} (h : stampDocument? version lead d = some stamped) {name : Text}
    (hpackage : name ≠ "package".toList) (hsection : dependencySections.contains name = false)
    (htarget : name ≠ "target".toList) :
    Entries.find? name stamped.entries = Entries.find? name d.entries := by
  obtain ⟨form, inner, -, rfl⟩ := stampDocument?_eq_some.mp h
  rw [find?_stampFamily_of_ne lead version _ hsection htarget, Entries.find?_replace_of_ne _ hpackage]

theorem Stamped.stampable {exact : Bool} {d : Document} (h : Stamped exact lead version d.entries) :
    ∃ stamped, stampDocument? version lead d = some stamped := by
  obtain ⟨form, inner, n, hfind, -, -⟩ := h.package
  exact ⟨_, stampDocument?_eq_some.mpr ⟨form, inner, hfind, rfl⟩⟩

theorem stampDocument?_eq_self {d : Document} (h : Stamped true lead version d.entries)
    (hd : distinctEntries d.entries) : stampDocument? version lead d = some d := by
  simp only [stampDocument?, stampPackage?_eq_self h, Option.map_some, stampFamily_eq_self h hd]

end Stamp

section

variable {lead version t s : Text}

theorem FaithfulText.of_read {d stamped : Document} (hread : Document.read t = .ok d)
    (hstamp : Stamp.stampDocument? version lead d = some stamped)
    (hagain : Document.read stamped.render = .ok stamped) : FaithfulText lead version t := by
  intro d' stamped' hd' hstamp'
  obtain rfl : d = d' := Except.ok.inj (hread.symm.trans hd')
  obtain rfl : stamped = stamped' := Option.some.inj (hstamp.symm.trans hstamp')
  exact ⟨stamped, hagain, Node.Agree.refl _, rfl⟩

theorem Faithful.stamped (h : Faithful lead version t) (hs : Relation.TransGen (Stamps lead version) t s) :
    ∃ d, Document.read s = .ok d ∧ Stamp.Stamped false lead version d.entries := by
  obtain ⟨u, hu, d, stamped, hd, hstamp, rfl⟩ := Relation.TransGen.tail'_iff.mp hs
  obtain ⟨e, he, hagree⟩ := h u d stamped hu hd hstamp
  exact ⟨e, he, (Stamp.stamped_stampDocument hstamp).loose.agree hagree (distinct_read he)⟩

theorem Faithful.again (h : Faithful lead version t) (hs : Relation.TransGen (Stamps lead version) t s) :
    ∃ u, Stamps lead version s u := by
  obtain ⟨d, hd, hstamped⟩ := h.stamped hs
  obtain ⟨stamped, hstamp⟩ := hstamped.stampable
  exact ⟨stamped.render, d, stamped, hd, hstamp, rfl⟩

theorem FaithfulText.again (h : FaithfulText lead version t) (hs : Stamps lead version t s) :
    Stamps lead version s s := by
  obtain ⟨d, stamped, hd, hstamp, rfl⟩ := hs
  obtain ⟨e, he, hagree, htext⟩ := h d stamped hd hstamp
  have hstamped := (Stamp.stamped_stampDocument hstamp).agree hagree (distinct_read he)
  exact ⟨e, e, he, Stamp.stampDocument?_eq_self hstamped (distinct_read he), htext.symm⟩

theorem FaithfulText.eq_or_stamps (h : FaithfulText lead version t)
    (hs : Relation.ReflTransGen (Stamps lead version) t s) : s = t ∨ Stamps lead version t s := by
  induction hs with
  | refl => exact .inl rfl
  | tail _ hlast ih =>
    rcases ih with rfl | hs
    · exact .inr hlast
    · obtain rfl := (h.again hs).unique hlast
      exact .inr hs

/-- Where the first stamp reads back as it was printed, so does every stamp. -/
theorem FaithfulText.faithful (h : FaithfulText lead version t) : Faithful lead version t := by
  intro u d stamped hu hd hstamp
  rcases h.eq_or_stamps hu with rfl | hs
  · obtain ⟨e, he, hagree, -⟩ := h d stamped hd hstamp
    exact ⟨e, he, hagree.loose⟩
  · have hu : stamped.render = u := (h.again hs).unique ⟨d, stamped, hd, hstamp, rfl⟩ ▸ rfl
    obtain ⟨d₀, stamped₀, hd₀, hstamp₀, rfl⟩ := hs
    obtain ⟨e, he, hagree, -⟩ := h d₀ stamped₀ hd₀ hstamp₀
    obtain rfl : e = d := Except.ok.inj (he.symm.trans hd)
    have hstamped := (Stamp.stamped_stampDocument hstamp₀).agree hagree (distinct_read he)
    have hself := Stamp.stampDocument?_eq_self hstamped (distinct_read he)
    obtain rfl : e = stamped := Option.some.inj (hself.symm.trans hstamp)
    exact ⟨e, by rw [hu, he], Node.Agree.refl _⟩

end

section Plain

/-- A manifest whose one dependency has the version of its package. -/
def plainManifest (version : Text) : Text :=
  "[package]\nversion = \"".toList ++ version ++ "\"\n[dependencies]\nena-b = \"".toList ++ version ++
    "\"\n".toList

def plainDocument (version : Text) : Document :=
  ⟨[bareHeader 1 "package" [lineEntry "version" version], bareHeader 2 "dependencies" [lineEntry "ena-b" version]], []⟩

set_option maxRecDepth 10000 in
theorem faithfulText_plainManifest : FaithfulText "ena".toList ['1'] (plainManifest ['0']) := by
  have hread : Document.read (plainManifest ['0']) = .ok (plainDocument ['0']) := rfl
  have hstamp : Stamp.stampDocument? ['1'] "ena".toList (plainDocument ['0']) = some (plainDocument ['1']) := rfl
  have hprint : (plainDocument ['1']).render = plainManifest ['1'] := rfl
  have hagain : Document.read (plainManifest ['1']) = .ok (plainDocument ['1']) := rfl
  exact .of_read hread hstamp (by rw [hprint, hagain])

end Plain

end WorkspaceRelease

import WorkspaceRelease.CommandLine.Options
import WorkspaceRelease.Proofs.Text

/-!
The words of the command line. The form of a word, with the name and the value in it, gives back its letters.
-/

namespace WorkspaceRelease.CommandLine

def dashes : Text := ['-', '-']

def verboseLetter : Text := ['-', 'v']

/-- A word that is no option, and so the value of an option that waits for one. -/
def IsPlain (t : Text) : Prop := t.head? ≠ some '-' ∨ t = ['-']

def Word.text : Word → Text
  | .dashes => CommandLine.dashes
  | .long name none => name
  | .long name (some value) => name ++ '=' :: value
  | .letters cs => '-' :: cs
  | .plain t => t

section Forms

variable {t name value : Text}

theorem text_ofText (t : Text) : (Word.ofText t).text = t := by
  unfold Word.ofText
  split
  · rfl
  · split
    next name value hcut =>
      obtain ⟨heq, -⟩ := Text.cut?_eq_some.mp hcut
      exact heq.symm
    next => rfl
  · rfl
  · rfl

theorem not_isPlain_dash (c : Char) (s : Text) : ¬IsPlain ('-' :: c :: s) := by
  rintro (hhead | heq)
  · exact hhead rfl
  · simp at heq

theorem ofText_of_isPlain (h : IsPlain t) : Word.ofText t = .plain t := by
  unfold Word.ofText
  split
  · exact absurd h (not_isPlain_dash _ _)
  · exact absurd h (not_isPlain_dash _ _)
  · exact absurd h (not_isPlain_dash _ _)
  · rfl

theorem isPlain_of_ofText {u : Text} (h : Word.ofText t = .plain u) : IsPlain t := by
  unfold Word.ofText at h
  split at h
  · contradiction
  · split at h <;> contradiction
  · contradiction
  next hdashes hlong hletters =>
    cases t with
    | nil => exact .inl (by simp)
    | cons c s =>
      cases s with
      | nil =>
        by_cases hc : c = '-'
        · exact .inr (by rw [hc])
        · exact .inl (by simpa using hc)
      | cons d s =>
        refine .inl fun hhead => ?_
        obtain rfl := Option.some.inj hhead
        exact hletters d s rfl

end Forms

section Names

variable {s r : Switch} {name value : Text}

theorem name_eq_dashes (s : Switch) : ∃ rest, s.name = '-' :: '-' :: rest := by
  cases s with
  | flag f => cases f <;> exact ⟨_, rfl⟩
  | value o => cases o <;> exact ⟨_, rfl⟩
  | question q => cases q <;> exact ⟨_, rfl⟩

theorem switch?_name (s : Switch) : switch? s.name = some s := by
  cases s with
  | flag f => cases f <;> rfl
  | value o => cases o <;> rfl
  | question q => cases q <;> rfl

theorem name_of_switch? (h : switch? name = some s) : s.name = name := by
  simpa using List.find?_some h

theorem name_inj : s.name = r.name ↔ s = r := by
  constructor
  · intro h
    apply Option.some.inj
    rw [← switch?_name s, h, switch?_name r]
  · rintro rfl
    rfl

theorem ofText_name (s : Switch) : Word.ofText s.name = .long s.name none := by
  cases s with
  | flag f => cases f <;> rfl
  | value o => cases o <;> rfl
  | question q => cases q <;> rfl

theorem ofText_joined (s : Switch) (value : Text) :
    Word.ofText (s.name ++ '=' :: value) = .long s.name (some value) := by
  cases s with
  | flag f => cases f <;> rfl
  | value o => cases o <;> rfl
  | question q => cases q <;> rfl

end Names

end WorkspaceRelease.CommandLine

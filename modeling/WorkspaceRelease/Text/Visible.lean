import WorkspaceRelease.Text.Basic

/-!
What a terminal shows of a text: its control sequences, and the control characters that do not move
to another column or line, are left out.
-/

namespace WorkspaceRelease.Text

/-- Where in a control sequence a text stands. -/
inductive Sequence where
  | outside
  | escape
  | intermediate
  | parameters
  /-- In a string that only a control character ends. -/
  | string
  /-- In a string that the bell ends as well. -/
  | title
  deriving DecidableEq, Repr

def isControl (c : Char) : Bool := c.toNat < 0x20 || c.toNat = 0x7F

/-- The control characters that are shown. -/
def isMovement (c : Char) : Bool := c = '\t' || c = '\n' || c = '\x0c' || c = '\r'

def isIntermediate (c : Char) : Bool := 0x20 ≤ c.toNat && c.toNat ≤ 0x2F

def isParameter (c : Char) : Bool := 0x20 ≤ c.toNat && c.toNat ≤ 0x3F

namespace Sequence

/-- The sequence that the character behind an escape character opens. -/
def opened (c : Char) : Sequence :=
  if c = '[' then parameters
  else if c = ']' then title
  else if c = 'P' || c = 'X' || c = '^' || c = '_' then string
  else if isIntermediate c then intermediate
  else outside

/-- The place behind a character, and whether the character is shown. Characters that no sequence is
made of do not end one. -/
def step (q : Sequence) (c : Char) : Sequence × Bool :=
  if c = '\x1b' then (escape, false)
  else if c = '\x18' || c = '\x1a' then (outside, false)
  else
    match q with
    | outside => (outside, !isControl c || isMovement c)
    | string => (string, false)
    | title => (if c = '\x07' then outside else title, false)
    | q =>
      if isMovement c then (outside, true)
      else if isControl c || 0x7F < c.toNat then (q, false)
      else
        match q with
        | escape => (opened c, false)
        | intermediate => (if isIntermediate c then intermediate else outside, false)
        | _ => (if isParameter c then parameters else outside, false)

/-- What is shown of a text that starts at a place. -/
def visible (q : Sequence) : Text → Text
  | [] => []
  | c :: s =>
    match q.step c with
    | (q, true) => c :: visible q s
    | (q, false) => visible q s

end Sequence

def visible (t : Text) : Text := Sequence.outside.visible t

theorem step_outside_of_not_isControl {c : Char} (h : isControl c = false) :
    Sequence.outside.step c = (.outside, true) := by
  have hne : ∀ d : Char, isControl d = true → c ≠ d := by
    intro d hd e
    simp [e, hd] at h
  simp [Sequence.step, h, hne '\x1b' rfl, hne '\x18' rfl, hne '\x1a' rfl]

/-- A text without control characters is shown as it is. -/
theorem visible_eq_self {t : Text} (h : ∀ c ∈ t, isControl c = false) : visible t = t := by
  induction t with
  | nil => rfl
  | cons c s ih =>
    have hs := ih fun d hd => h d (List.mem_cons_of_mem _ hd)
    simp only [visible] at hs
    simp [visible, Sequence.visible, step_outside_of_not_isControl (h c (by simp)), hs]

end WorkspaceRelease.Text

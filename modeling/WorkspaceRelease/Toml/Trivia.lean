import WorkspaceRelease.Text.Basic

/-!
Trivia is the text between tokens: blank space, line ends and comments. It is kept for writing the
document back, without its carriage returns.
-/

namespace WorkspaceRelease.Toml

def isSpace (c : Char) : Bool := c = ' ' || c = '\t'

/-- Comments and strings admit the tab and no other control character. -/
def isPrintable (c : Char) : Bool := c = '\t' || (0x20 ≤ c.toNat && c.toNat ≠ 0x7F)

def spaces (s : Text) : Text × Text := (s.takeWhile isSpace, s.dropWhile isSpace)

/-- The longest run of blank space, line ends and comments. A carriage return counts only before a
line feed, and is dropped. -/
def trivia (inComment : Bool) : Text → Text × Text
  | [] => ([], [])
  | c :: s =>
    if c = '\n' then
      let (t, rest) := trivia false s
      (c :: t, rest)
    else if c = '\r' && s.head? = some '\n' then trivia false s
    else if inComment then
      if isPrintable c then
        let (t, rest) := trivia true s
        (c :: t, rest)
      else ([], c :: s)
    else if isSpace c || c = '#' then
      let (t, rest) := trivia (c = '#') s
      (c :: t, rest)
    else ([], c :: s)

def lineEnd? : Text → Option Text
  | [] => some []
  | '\n' :: s => some s
  | '\r' :: '\n' :: s => some s
  | _ => none

/-- Blank space and a comment up to the end of the line, and the text after the line end. -/
def lineTail? (s : Text) : Option (Text × Text) :=
  match s.takeWhile isSpace, s.dropWhile isSpace with
  | t, '#' :: s => do
    let rest ← lineEnd? (s.dropWhile isPrintable)
    some (t ++ '#' :: s.takeWhile isPrintable, rest)
  | t, s => do
    let rest ← lineEnd? s
    some (t, rest)

end WorkspaceRelease.Toml

import WorkspaceRelease.Toml.Quoted

/-!
The written form of a new string: the plainest of the four quoted forms that can hold it, with
escapes only where none can.
-/

namespace WorkspaceRelease.Toml

inductive StringForm where
  | basic
  | literal
  | multiLineBasic
  | multiLineLiteral
  deriving DecidableEq, Repr

def longestRun (c : Char) : Text → Nat
  | [] => 0
  | d :: s =>
    if d = c then max (1 + (s.takeWhile (· = c)).length) (longestRun c s) else longestRun c s

namespace StringForm

/-- Whether a form other than the escaped one can hold the text as it stands. -/
def holds (value : Text) : StringForm → Bool
  | .basic => value.all (fun c => isPrintable c && c ≠ '\\' && c ≠ '"')
  | .literal => value.all (fun c => isPrintable c && c ≠ '\'')
  | .multiLineBasic =>
    value.all (fun c => (isPrintable c || c = '\n') && c ≠ '\\') && longestRun '"' value ≤ 2
  | .multiLineLiteral =>
    value.all (fun c => isPrintable c || c = '\n') && longestRun '\'' value ≤ 2

/-- The first form that holds the text; if none does, an escaped one. -/
def choose (value : Text) : StringForm :=
  match [basic, literal, multiLineBasic, multiLineLiteral].find? (holds value) with
  | some form => form
  | none => if value.contains '\n' then .multiLineBasic else .basic

end StringForm

def upperHexDigit (n : Nat) : Char := "0123456789ABCDEF".toList.getD n '0'

def escapeCode (c : Char) : Text :=
  let n := c.toNat
  ['\\', 'u', upperHexDigit (n / 4096 % 16), upperHexDigit (n / 256 % 16),
    upperHexDigit (n / 16 % 16), upperHexDigit (n % 16)]

def escapeChar (c : Char) : Text :=
  if c = '\x08' then ['\\', 'b']
  else if c = '\t' then ['\\', 't']
  else if c = '\n' then ['\\', 'n']
  else if c = '\x0c' then ['\\', 'f']
  else if c = '\r' then ['\\', 'r']
  else if c = '\\' then ['\\', '\\']
  else if c = '"' then ['\\', '"']
  else if isPrintable c then [c]
  else escapeCode c

/-- Within three quotes a line end stands for itself, and so do the first two quotes of a run, of
which the number before the next character is given. -/
def escapeLines (quotes : Nat) : Text → Text
  | [] => []
  | c :: s =>
    if c = '"' && quotes < 2 then c :: escapeLines (quotes + 1) s
    else if c = '\n' then c :: escapeLines 0 s
    else escapeChar c ++ escapeLines 0 s

/-- A multi-line form opens with a line end only if the text has one of its own. -/
def lineOpening (value : Text) : Text := if value.contains '\n' then ['\n'] else []

def StringForm.write (value : Text) : StringForm → Text
  | .basic => '"' :: value.flatMap escapeChar ++ ['"']
  | .literal => '\'' :: value ++ ['\'']
  | .multiLineBasic =>
    ['"', '"', '"'] ++ lineOpening value ++ escapeLines 0 value ++ ['"', '"', '"']
  | .multiLineLiteral => ['\'', '\'', '\''] ++ lineOpening value ++ value ++ ['\'', '\'', '\'']

def encodeString (value : Text) : Text := (StringForm.choose value).write value

end WorkspaceRelease.Toml

import WorkspaceRelease.Text.CodePoint
import WorkspaceRelease.Toml.Trivia

/-!
The four quoted forms of a string. One scanner reads them all, a character at a time; each form is
the rule that says what the next character does.
-/

namespace WorkspaceRelease.Toml.Quoted

/-- What the scanner has to keep in mind about the characters before the next one. -/
inductive Mode where
  /-- Nothing but the opening quotes of a multi-line form. -/
  | opening
  | plain
  /-- A backslash. -/
  | escape
  /-- A backslash that is to take the line end and the blank space after it out of the string. -/
  | gap (lineEnded : Bool)
  /-- The digits of a code point, of which so many are still to come. -/
  | code (left : Nat) (value : Nat)
  deriving DecidableEq, Repr

/-- What the next character does: it adds to the value, or it and some of those after it close the
string, or no string continues with it. -/
inductive Step where
  | add (value : Text) (next : Mode)
  | close (value : Text) (more : Nat)
  | refuse
  deriving DecidableEq, Repr

/-- A rule sees the next character and those after it. -/
abbrev Rule := Mode → Char → Text → Step

structure Scan where
  written : Text
  value : Text
  rest : Text
  deriving DecidableEq, Repr

def scan (rule : Rule) : Mode → Text → Option Scan
  | _, [] => none
  | mode, c :: s =>
    match rule mode c s with
    | .add v next => (scan rule next s).map fun r => ⟨c :: r.written, v ++ r.value, r.rest⟩
    | .close v more => some ⟨c :: s.take more, v, s.drop more⟩
    | .refuse => none

def escapes : List (Char × Char) :=
  [('b', '\x08'), ('t', '\t'), ('n', '\n'), ('f', '\x0c'), ('r', '\r'), ('e', '\x1b'), ('"', '"'),
   ('\\', '\\')]

/-- The escapes that are followed by so many hexadecimal digits. -/
def codeEscapes : List (Char × Nat) := [('x', 2), ('u', 4), ('U', 8)]

def escapeStep (c : Char) : Step :=
  match escapes.lookup c, codeEscapes.lookup c with
  | some d, _ => .add [d] .plain
  | none, some digits => .add [] (.code digits 0)
  | none, none => .refuse

def codeStep (left value : Nat) (c : Char) : Step :=
  match hexDigit? c with
  | none => .refuse
  | some d =>
    if left ≤ 1 then
      match codePoint? (16 * value + d) with
      | some c => .add [c] .plain
      | none => .refuse
    else .add [] (.code (left - 1) (16 * value + d))

/-- A character of the string itself; line ends only where the form admits them. -/
def plainStep (multiLine : Bool) (c : Char) (s : Text) : Step :=
  if isPrintable c then .add [c] .plain
  else if multiLine && (c = '\n' || (c = '\r' && s.head? = some '\n')) then .add [c] .plain
  else .refuse

def basic : Rule
  | .escape, c, _ => escapeStep c
  | .code left value, c, _ => codeStep left value c
  | _, c, s =>
    if c = '"' then .close [] 0
    else if c = '\\' then .add [] .escape
    else plainStep false c s

def literal : Rule
  | _, c, s => if c = '\'' then .close [] 0 else plainStep false c s

/-- Three quotes close a multi-line form; up to two more before them belong to the string. -/
def closing? (quote c : Char) (s : Text) : Option Step :=
  if c = quote && s.take 2 = [quote, quote] then
    let extra := ((s.drop 2).take 2).takeWhile (· = quote)
    some (.close extra (2 + extra.length))
  else none

/-- The body of a multi-line form, after a gap or without one. -/
def multiLineStep (quote : Char) (escaping : Bool) (c : Char) (s : Text) : Step :=
  match closing? quote c s with
  | some step => step
  | none => if escaping && c = '\\' then .add [] .escape else plainStep true c s

/-- A line end right after the opening quotes is not part of the string. -/
def openingStep (quote : Char) (escaping : Bool) (c : Char) (s : Text) : Step :=
  if c = '\n' then .add [] .plain
  else if c = '\r' && s.head? = some '\n' then .add [] .opening
  else multiLineStep quote escaping c s

def multiLineBasic : Rule
  | .escape, c, s =>
    if isSpace c then .add [] (.gap false)
    else if c = '\n' then .add [] (.gap true)
    else if c = '\r' && s.head? = some '\n' then .add [] (.gap false)
    else escapeStep c
  | .gap lineEnded, c, s =>
    if isSpace c then .add [] (.gap lineEnded)
    else if c = '\n' then .add [] (.gap true)
    else if c = '\r' && s.head? = some '\n' then .add [] (.gap lineEnded)
    else if lineEnded then multiLineStep '"' true c s
    else .refuse
  | .code left value, c, _ => codeStep left value c
  | .opening, c, s => openingStep '"' true c s
  | .plain, c, s => multiLineStep '"' true c s

def multiLineLiteral : Rule
  | .opening, c, s => openingStep '\'' false c s
  | _, c, s => multiLineStep '\'' false c s

def Scan.opened (quotes : Text) (r : Scan) : Scan := { r with written := quotes ++ r.written }

def singleLine? : Text → Option Scan
  | '"' :: s => (scan basic .plain s).map (Scan.opened ['"'])
  | '\'' :: s => (scan literal .plain s).map (Scan.opened ['\''])
  | _ => none

def read? : Text → Option Scan
  | '"' :: '"' :: '"' :: s => (scan multiLineBasic .opening s).map (Scan.opened ['"', '"', '"'])
  | '\'' :: '\'' :: '\'' :: s => (scan multiLineLiteral .opening s).map (Scan.opened ['\'', '\'', '\''])
  | s => singleLine? s

end WorkspaceRelease.Toml.Quoted

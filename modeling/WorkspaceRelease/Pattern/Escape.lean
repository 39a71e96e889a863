import WorkspaceRelease.Pattern.Cursor
import WorkspaceRelease.Pattern.Syntax
import WorkspaceRelease.Text.CodePoint

/-!
Escapes: what a backslash and the characters behind it stand for.
-/

namespace WorkspaceRelease.Pattern

open Reading

/-- Characters that a backslash leaves as they are. -/
def isEscapable (c : Char) : Bool := c.toNat < 0x80 && !c.isAlphanum && c ≠ '<' && c ≠ '>'

def controlLetters : List (Char × Char) :=
  [('a', '\x07'), ('f', '\x0c'), ('t', '\t'), ('n', '\n'), ('r', '\r'), ('v', '\x0b')]

def shorthandLetters : List (Char × ShorthandKind) := [('d', .digit), ('s', .space), ('w', .word)]

def anchorLetters : List (Char × Anchor) :=
  [('A', .textStart), ('z', .textEnd), ('b', .word .boundary), ('B', .word .inner),
   ('<', .word .start), ('>', .word .stop)]

def placeNames : List (Text × WordPlace) :=
  [("start", .start), ("end", .stop), ("start-half", .startHalf), ("end-half", .stopHalf)].map
    fun (name, place) => (name.toList, place)

/-- A number of so many hexadecimal digits, behind those that have given a value. -/
def readHexDigits : Nat → Nat → Reading Nat
  | 0, value => return value
  | n + 1, value => do
    match ← next? with
    | none => failHere .escapeUnfinished
    | some c =>
      match hexDigit? c with
      | none => failNext .escapeHexInvalidDigit
      | some d => do
        let _ ← bumpSkip
        readHexDigits n (16 * value + d)

/-- The digits up to the closing brace; there may be none. -/
def readBracedDigits (brace : Position) : Nat → Option Nat → Reading (Option Nat)
  | 0, value => return value
  | fuel + 1, value => do
    match ← bumpSkip with
    | none => failFrom .escapeUnfinished brace
    | some '\x7d' => return value
    | some c =>
      match hexDigit? c with
      | none => failNext .escapeHexInvalidDigit
      | some d => readBracedDigits brace fuel (some (16 * value.getD 0 + d))

def hexWidth (letter : Char) : Nat := if letter = 'x' then 2 else if letter = 'u' then 4 else 8

/-- A code point of the escape that starts at a position, from its letter on. -/
def readHex (start : Position) (letter : Char) : Reading Literal := do
  match ← bumpSkip with
  | none => failHere .escapeUnfinished
  | some '\x7b' =>
    let brace ← here
    let value ← readBracedDigits brace (← get).rest.length none
    let inside ← spanFrom (brace.next '\x7b')
    let _ ← bumpSkip
    match value with
    | none => failFrom .escapeHexEmpty brace
    | some n =>
      match codePoint? n with
      | none => fail .escapeHexInvalid inside
      | some c => return ⟨c, false, ← spanFrom start⟩
  | some _ =>
    let first ← here
    let n ← readHexDigits (hexWidth letter) 0
    match codePoint? n with
    | none => failFrom .escapeHexInvalid first
    | some c => return ⟨c, letter = 'x', ← spanFrom start⟩

/-- The text up to the closing brace, behind what has been read of it. -/
def readBracedText : Nat → Text → Reading Text
  | 0, read => return read
  | fuel + 1, read => do
    match ← bumpSkip with
    | none => failHere .escapeUnfinished
    | some '\x7d' => return read
    | some c => readBracedText fuel (read ++ [c])

def readProperty (start : Position) (negated : Bool) : Reading Property := do
  match ← bumpSkip with
  | none => failHere .escapeUnfinished
  | some '\x7b' =>
    let query ← readBracedText (← get).rest.length []
    let _ ← bump
    return ⟨query, negated, ← spanFrom start⟩
  | some '\\' => failNext .propertyInvalid
  | some c =>
    let _ ← bumpSkip
    return ⟨[c], negated, ← spanFrom start⟩

def isPlaceChar (c : Char) : Bool := c.isAlpha || c = '-'

def readPlaceName : Nat → Text → Reading Text
  | 0, read => return read
  | fuel + 1, read => do
    match ← next? with
    | none => return read
    | some c =>
      if isPlaceChar c then
        let _ ← bumpSkip
        readPlaceName fuel (read ++ [c])
      else return read

/-- The place that braces behind a boundary name. Braces with anything but a name are a count, which
is left unread. -/
def readPlace? (start : Position) : Reading (Option WordPlace) := do
  let k ← get
  if k.rest.head? ≠ some '\x7b' then return none
  match ← bumpSkip with
  | none => failFrom .wordBoundaryOrCountUnfinished start
  | some c =>
    if !isPlaceChar c then
      set k
      return none
    let inner ← here
    let name ← readPlaceName k.rest.length []
    match ← next? with
    | some '\x7d' =>
      let span ← spanFrom inner
      let _ ← bump
      match placeNames.lookup name with
      | some place => return some place
      | none => fail .wordBoundaryUnrecognized span
    | _ => failFrom .wordBoundaryUnclosed k.position

def readLetter (start : Position) (c : Char) : Reading Primitive := do
  let span ← spanFrom start
  if isEscapable c then return .literal ⟨c, false, span⟩
  match controlLetters.lookup c, anchorLetters.lookup c with
  | some d, _ => return .literal ⟨d, false, span⟩
  | none, some a =>
    if c = 'b' then
      match ← readPlace? start with
      | some place => return .anchor (.word place) (← spanFrom start)
      | none => return .anchor a span
    else return .anchor a span
  | none, none => fail .escapeUnrecognized span

def readEscape : Reading Primitive := do
  let start ← here
  match ← bump with
  | none => failFrom .escapeUnfinished start
  | some c =>
    if c.isDigit then fail .backreference ⟨start, (← nextSpan).stop⟩
    else if c = 'x' || c = 'u' || c = 'U' then return .literal (← readHex start c)
    else if c = 'p' || c = 'P' then return .property (← readProperty start (c = 'P'))
    else
      let _ ← bump
      match shorthandLetters.lookup c.toLower with
      | some kind => return .shorthand ⟨kind, c.isUpper, ← spanFrom start⟩
      | none => readLetter start c

end WorkspaceRelease.Pattern

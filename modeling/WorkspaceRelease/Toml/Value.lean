import WorkspaceRelease.Toml.DateTime
import WorkspaceRelease.Toml.Number
import WorkspaceRelease.Toml.Tree

/-!
Reading values. Arrays and tables in braces nest to a fixed depth, on which the reader recurs.
-/

namespace WorkspaceRelease.Toml

def isLiteralChar (c : Char) : Bool :=
  c.isAlphanum || c = '+' || c = '-' || c = '_' || c = '.' || c = ':'

/-- The text of an unquoted literal; a date takes a time that follows it after one space. -/
def literalText (s : Text) : Text :=
  let word := s.takeWhile isLiteralChar
  match DateTime.date? word, s.drop word.length with
  | some (_, []), ' ' :: c :: rest =>
    if c.isDigit then word ++ ' ' :: (c :: rest).takeWhile isLiteralChar else word
  | _, _ => word

def literal? (t : Text) : Option Scalar :=
  if t = "true".toList then some (.boolean true)
  else if t = "false".toList then some (.boolean false)
  else
    ((Number.integer? t).map .integer).or
      (((Number.float? t).map .float).or ((DateTime.read? t).map .dateTime))

def scalar (s : Text) : Except Fault (Node × Text) :=
  match Quoted.read? s with
  | some r => .ok (.scalar (.string r.value) r.written {}, r.rest)
  | none =>
    let t := literalText s
    match literal? t with
    | some d => .ok (.scalar d t {}, s.drop t.length)
    | none => .error .malformed

/-- The items of an array, whether a comma follows the last one, and the trivia before the closing
bracket. -/
structure Items where
  items : List Node
  trailingComma : Bool
  trailing : Text
  deriving Repr

/-- Reads items from behind the bracket, or from behind a comma, to the closing bracket. -/
def readItems (item : Text → Except Fault (Node × Text)) :
    Nat → Bool → Text → Except Fault (Items × Text)
  | 0, _, _ => .error .malformed
  | fuel + 1, comma, s =>
    let (before, s) := trivia false s
    match s with
    | ']' :: s => .ok (⟨[], comma, before⟩, s)
    | s => do
      let (n, s) ← item s
      let (after, s) := trivia false s
      let n := n.withPad ⟨some before, some after⟩
      match s with
      | ',' :: s => do
        let (rest, s) ← readItems item fuel true s
        .ok ({ rest with items := n :: rest.items }, s)
      | ']' :: s => .ok (⟨[n], false, []⟩, s)
      | _ => .error .malformed

structure Fields where
  entries : List Entry
  preamble : Text
  deriving Repr

/-- Reads fields from behind the brace, or from behind a comma, to the closing brace. Each is given
to the entries before it. -/
def readFields (item : Text → Except Fault (Node × Text)) :
    Nat → List Entry → Text → Except Fault (Fields × Text)
  | 0, _, _ => .error .malformed
  | fuel + 1, es, s =>
    let (before, s) := trivia false s
    match s with
    | '\x7d' :: s => .ok (⟨es, before⟩, s)
    | s => do
      let (segments, s) ← Key.readPath s
      let (after, s) := trivia false s
      match s with
      | '=' :: s => do
        let (valueBefore, s) := trivia false s
        let (n, s) ← item s
        let (valueAfter, s) := trivia false s
        let n := n.withPad ⟨some valueBefore, some valueAfter⟩
        match assign? .inlineDotted (Key.ofSegments before after segments) n es, s with
        | some es, ',' :: s => readFields item fuel es s
        | some es, '\x7d' :: s => .ok (⟨es, []⟩, s)
        | _, _ => .error .malformed
      | _ => .error .malformed

/-- Arrays and tables in braces may nest this deep. -/
def nestingLimit : Nat := 80

/-- A value without padding, in which so many brackets and braces may still nest. -/
def readValue : Nat → Text → Except Fault (Node × Text)
  | depth + 1, '[' :: s => do
    let (r, s) ← readItems (readValue depth) (s.length + 1) false s
    .ok (.array r.items r.trailingComma r.trailing {}, s)
  | depth + 1, '\x7b' :: s => do
    let (r, s) ← readFields (readValue depth) (s.length + 1) [] s
    .ok (.table (.inline r.preamble {}) r.entries, s)
  | _, s => scalar s

end WorkspaceRelease.Toml

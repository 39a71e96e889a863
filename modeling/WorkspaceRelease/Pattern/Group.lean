import WorkspaceRelease.Pattern.Cursor
import WorkspaceRelease.Pattern.Syntax

/-!
The openings of groups: names and flags.
-/

namespace WorkspaceRelease.Pattern

open Reading

def flagLetters : List (Char × FlagItem) :=
  [('-', .negation), ('i', .mode .ignoreCase), ('m', .mode .multiLine), ('s', .mode .dotAll),
   ('U', .mode .swapGreed), ('u', .mode .unicode), ('R', .mode .crlf), ('x', .mode .spaced)]

/-- The flags up to a colon or a closing parenthesis, behind those that have been read, the last of
them first. -/
def readFlags : Nat → List (FlagItem × Span) → Reading (List FlagItem)
  | 0, _ => failHere .flagUnfinished
  | fuel + 1, read => do
    match ← next? with
    | none => failHere .flagUnfinished
    | some c =>
      if c = ':' || c = ')' then
        match read with
        | (.negation, span) :: _ => fail .flagDanglingNegation span
        | _ => return (read.map (·.1)).reverse
      else
        let span ← nextSpan
        match flagLetters.lookup c with
        | none => fail .flagUnrecognized span
        | some item =>
          match read.lookup item with
          | some earlier =>
            let reason := if item = .negation then .flagRepeatedNegation else .flagDuplicate
            throw ⟨reason, span, some earlier⟩
          | none =>
            let _ ← bump
            readFlags fuel ((item, span) :: read)

/-- Every character past the ASCII ones counts as a letter. -/
def isNameStart (c : Char) : Bool := c = '_' || c.isAlpha || 0x7F < c.toNat

def isNameChar (c : Char) : Bool := isNameStart c || c.isDigit || c = '.' || c = '[' || c = ']'

def readNameChars : Nat → Text → Reading Text
  | 0, read => return read
  | fuel + 1, read => do
    match ← next? with
    | none => failHere .groupNameUnfinished
    | some '>' => return read
    | some c =>
      if (if read.isEmpty then isNameStart c else isNameChar c) then
        let _ ← bump
        readNameChars fuel (read ++ [c])
      else failNext .groupNameInvalid

/-- The name of a group, and the angle bracket behind it. No two groups share a name. -/
def readGroupName : Reading Unit := do
  let start ← here
  let name ← readNameChars ((← get).rest.length + 1) []
  let span ← spanFrom start
  let _ ← bump
  if name.isEmpty then fail .groupNameEmpty span
  match (← get).names.lookup name with
  | some earlier => throw ⟨.groupNameDuplicate, span, some earlier⟩
  | none => modify fun k => { k with names := (name, span) :: k.names }

inductive GroupOpening where
  /-- Flags that stand alone. -/
  | flags (items : List FlagItem) (span : Span)
  /-- A group with its flags, and the opening parenthesis. -/
  | group (items : List FlagItem) (opened : Span)

def lookAroundMarks : List Text := ["?=".toList, "?!".toList, "?<=".toList, "?<!".toList]

/-- From the opening parenthesis up to the first term of the group. -/
def readGroupOpening : Reading GroupOpening := do
  let opened ← nextSpan
  let _ ← bumpSkip
  let k ← get
  match lookAroundMarks.find? fun mark => mark.isPrefixOf k.rest with
  | some mark => fail .lookAround ⟨opened.start, (k.advance mark.length).position⟩
  | none =>
    if ← accept "?P<".toList then
      readGroupName
      return .group [] opened
    else if ← accept "?<".toList then
      readGroupName
      return .group [] opened
    else if ← accept ['?'] then
      if (← next?).isNone then fail .groupUnclosed opened
      let items ← readFlags ((← get).rest.length + 1) []
      let closing ← next?
      let _ ← bump
      if closing = some ')' then
        if items.isEmpty then fail .repetitionMissing ⟨k.position, k.position⟩
        return .flags items (← spanFrom opened.start)
      else return .group items opened
    else return .group [] opened

end WorkspaceRelease.Pattern

import WorkspaceRelease.Pattern.Cursor
import WorkspaceRelease.Pattern.Syntax

/-!
How often the term before is repeated: a sign, or a count in braces.
-/

namespace WorkspaceRelease.Pattern

open Reading

/-- Counts are below this. -/
def countBound : Nat := 1 <<< 32

def skipBlank : Reading Unit := modify fun k => k.advance (k.rest.takeWhile isBlank).length

/-- The value of the digits, behind those that have given a value; `none` if there are none. -/
def readDigits : Nat → Option Nat → Reading (Option Nat)
  | 0, value => return value
  | fuel + 1, value => do
    match ← next? with
    | some c =>
      if c.isDigit then
        let _ ← bumpSkip
        readDigits fuel (some (10 * value.getD 0 + (c.toNat - '0'.toNat)))
      else return value
    | none => return value

/-- A number with blank space around it. What is wrong with it may turn out not to matter. -/
def readNumber : Reading (Except Fault Nat) := do
  skipBlank
  let start ← here
  let value ← readDigits (← get).rest.length none
  let span ← spanFrom start
  skipBlank
  match value with
  | none => return .error { reason := .repetitionCountEmpty, span }
  | some n =>
    if n < countBound then return .ok n else return .error { reason := .decimalInvalid, span }

/-- The count up to the closing brace, from behind the opening one. -/
def readBounds (start : Position) : Reading Count := do
  let least ← readNumber
  match ← next? with
  | none => failFrom .repetitionCountUnclosed start
  | some ',' =>
    match ← bumpSkip with
    | none => failFrom .repetitionCountUnclosed start
    | some '\x7d' => return ⟨← liftM least, none⟩
    | some _ =>
      let least ← liftM least
      let most ← liftM (← readNumber)
      return ⟨least, some most⟩
  | some _ =>
    let n ← liftM least
    return ⟨n, some n⟩

/-- A count, from its opening brace on. A question mark behind it asks for as few as possible. -/
def readCount : Reading Count := do
  let start ← here
  match ← bumpSkip with
  | none => failFrom .repetitionCountUnclosed start
  | some _ =>
    let count ← readBounds start
    if (← next?) ≠ some '\x7d' then failFrom .repetitionCountUnclosed start
    if (← bumpSkip) = some '?' then
      let _ ← bump
    if count.most.any (· < count.least) then failFrom .repetitionCountInvalid start
    return count

def signs : List (Char × Count) := [('?', ⟨0, some 1⟩), ('*', ⟨0, none⟩), ('+', ⟨1, none⟩)]

/-- A repetition of a term that has been read, if one comes next. Nothing and flags cannot be
repeated. -/
def readRepetition? (last : Option Term) : Reading (Option Term) := do
  let repeated : Reading Term :=
    match last with
    | none | some (.empty _) | some (.flags _ _) => failHere .repetitionMissing
    | some t => return t
  match ← next? with
  | none => return none
  | some '\x7b' =>
    let t ← repeated
    let count ← readCount
    return some (.repetition count t (← spanFrom t.span.start))
  | some c =>
    match signs.lookup c with
    | none => return none
    | some count =>
      let t ← repeated
      if (← bump) = some '?' then
        let _ ← bump
      return some (.repetition count t (← spanFrom t.span.start))

end WorkspaceRelease.Pattern

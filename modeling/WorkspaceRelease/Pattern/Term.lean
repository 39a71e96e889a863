import WorkspaceRelease.Pattern.Bracket
import WorkspaceRelease.Pattern.Group
import WorkspaceRelease.Pattern.Repetition

/-!
Reading a whole pattern as a term.
-/

namespace WorkspaceRelease.Pattern

open Reading

/-- What has been read of a group: alternatives, and the terms of the one that is being read. -/
structure Group where
  start : Position
  alternatives : List Term
  /-- Where the alternative that is being read starts. -/
  last : Position
  terms : List Term

namespace Group

def startingAt (p : Position) : Group := ⟨p, [], p, []⟩

def push (g : Group) (t : Term) : Group := { g with terms := g.terms ++ [t] }

def replaceLast (g : Group) (t : Term) : Group := { g with terms := g.terms.dropLast ++ [t] }

def alternative (g : Group) (stop : Position) : Term :=
  match g.terms with
  | [] => .empty ⟨g.last, stop⟩
  | [t] => t
  | ts => .concat ts ⟨g.last, stop⟩

def term (g : Group) (stop : Position) : Term :=
  if g.alternatives.isEmpty then g.alternative stop
  else .alternation (g.alternatives ++ [g.alternative stop]) ⟨g.start, stop⟩

end Group

def readPrimitive (c : Char) : Reading Term := do
  if c = '\\' then return .primitive (← readEscape)
  else
    let span ← nextSpan
    let _ ← bump
    return .primitive (
      if c = '.' then .dot span
      else if c = '^' then .anchor .lineStart span
      else if c = '$' then .anchor .lineEnd span
      else .literal ⟨c, false, span⟩)

def setSpaced (items : List FlagItem) : Reading Unit :=
  modify fun k => { k with spaced := (flagState .spaced true items).getD k.spaced }

/-- The rest of a group, up to its closing parenthesis, or of the pattern. A group that is not closed
is known by its opening parenthesis. -/
def readGroup : Nat → Option Span → Group → Reading Term
  | 0, _, _ => failHere .groupUnclosed
  | fuel + 1, opened, g => do
    skip
    match ← next?, opened with
    | none, some span => fail .groupUnclosed span
    | none, none => return g.term (← here)
    | some ')', none => failNext .groupUnopened
    | some ')', some _ => return g.term (← here)
    | some '(', _ =>
      match ← readGroupOpening with
      | .flags items span =>
        setSpaced items
        readGroup fuel opened (g.push (.flags items span))
      | .group items span =>
        let spaced := (← get).spaced
        setSpaced items
        let t ← readGroup fuel (some span) (.startingAt (← here))
        modify fun k => { k with spaced }
        let _ ← bump
        readGroup fuel opened (g.push (.group items t (← spanFrom span.start)))
    | some '|', _ =>
      let stop ← here
      let _ ← bump
      let last ← here
      readGroup fuel opened
        { g with alternatives := g.alternatives ++ [g.alternative stop], last, terms := [] }
    | some '[', _ => readGroup fuel opened (g.push (.bracketed (← readBracketed)))
    | some c, _ =>
      match ← readRepetition? g.terms.getLast? with
      | some t => readGroup fuel opened (g.replaceLast t)
      | none => readGroup fuel opened (g.push (← readPrimitive c))

mutual

def ClassSet.excess? (levels : Nat) : ClassSet → Option Span
  | .bracketed _ set span =>
    match levels with
    | 0 => some span
    | n + 1 => set.excess? n
  | .union items span =>
    match levels with
    | 0 => some span
    | n + 1 => ClassSet.excessIn? n items
  | .operation _ left right span =>
    match levels with
    | 0 => some span
    | n + 1 => (left.excess? n).or (right.excess? n)
  | .empty _ | .literal _ | .range _ _ _ | .ascii _ _ _ | .shorthand _ | .property _ => none

def ClassSet.excessIn? (levels : Nat) : List ClassSet → Option Span
  | [] => none
  | c :: cs => (c.excess? levels).or (ClassSet.excessIn? levels cs)

end

mutual

/-- The first part of a term for which so many levels are too few. -/
def Term.excess? (levels : Nat) : Term → Option Span
  | .bracketed set => set.excess? levels
  | .repetition _ t span =>
    match levels with
    | 0 => some span
    | n + 1 => t.excess? n
  | .group _ t span =>
    match levels with
    | 0 => some span
    | n + 1 => t.excess? n
  | .alternation ts span =>
    match levels with
    | 0 => some span
    | n + 1 => Term.excessIn? n ts
  | .concat ts span =>
    match levels with
    | 0 => some span
    | n + 1 => Term.excessIn? n ts
  | .empty _ | .flags _ _ | .primitive _ => none

def Term.excessIn? (levels : Nat) : List Term → Option Span
  | [] => none
  | t :: ts => (t.excess? levels).or (Term.excessIn? levels ts)

end

def Term.ofText (pattern : Text) : Except Fault Term := do
  let (t, _) ← (readGroup (pattern.length + 1) none (.startingAt .first)).run (.ofText pattern)
  match t.excess? nestLimit with
  | some span => .error { reason := .nestLimitExceeded, span }
  | none => .ok t

end WorkspaceRelease.Pattern

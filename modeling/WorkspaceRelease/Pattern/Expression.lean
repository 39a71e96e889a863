import WorkspaceRelease.Pattern.CharSet
import WorkspaceRelease.Pattern.Syntax
import WorkspaceRelease.Text.Basic

/-!
What a pattern matches. An expression leads from places of a text to the places behind a match; a
place is the number of characters before it.
-/

namespace WorkspaceRelease.Pattern

/-- A condition on a place. -/
inductive Look where
  | textStart
  | textEnd
  /-- Lines end at a line feed, or also at a carriage return. -/
  | lineStart (crlf : Bool)
  | lineEnd (crlf : Bool)
  /-- Words are those of all scripts, or have ASCII letters alone. -/
  | word (place : WordPlace) (unicode : Bool)
  deriving DecidableEq, Repr

inductive Expression where
  | empty
  | chars (s : CharSet)
  | look (l : Look)
  | seq (e f : Expression)
  | either (e f : Expression)
  | repeated (count : Count) (e : Expression)
  deriving DecidableEq, Repr

def isWordChar (c : Char) : Bool := c.isAlphanum || c = '_'

def WordPlace.holds (before after : Bool) : WordPlace → Bool
  | .boundary => before != after
  | .inner => before == after
  | .start => !before && after
  | .stop => before && !after
  | .startHalf => !before
  | .stopHalf => !after

def Look.holds (before after : Option Char) : Look → Bool
  | .textStart => before.isNone
  | .textEnd => after.isNone
  | .lineStart false => before.isNone || before = some '\n'
  | .lineEnd false => after.isNone || after = some '\n'
  | .lineStart true =>
    before.isNone || before = some '\n' || (before = some '\r' && after ≠ some '\n')
  | .lineEnd true => after.isNone || after = some '\r' || (after = some '\n' && before ≠ some '\r')
  | .word place _ => place.holds (before.any isWordChar) (after.any isWordChar)

/-- Places in ascending order, each once. -/
abbrev Places := List Nat

namespace Places

def merge : Places → Places → Places
  | [], qs => qs
  | ps, [] => ps
  | p :: ps, q :: qs =>
    if p < q then p :: merge ps (q :: qs)
    else if q < p then q :: merge (p :: ps) qs
    else p :: merge ps qs
  termination_by ps qs => ps.length + qs.length

/-- Takes so many steps, or fewer if they lead nowhere else. -/
def iterate (step : Places → Places) : Nat → Places → Places
  | 0, ps => ps
  | n + 1, ps =>
    let qs := step ps
    if qs = ps then ps else iterate step n qs

/-- The places that up to so many steps from the last new ones lead to, with those found before. -/
def spread (step : Places → Places) : Nat → Places → Places → Places
  | 0, found, _ => found
  | _, found, [] => found
  | n + 1, found, p :: ps =>
    let new := (step (p :: ps)).filter fun q => !found.contains q
    spread step n (merge found new) new

end Places

namespace Expression

/-- The places behind a match that starts at one of the given places. A repetition that goes on for
longer than there are characters adds nothing. -/
def ends (text : Array Char) : Expression → Places → Places
  | .empty, ps => ps
  | .chars s, ps => (ps.filter fun p => text[p]?.any s.contains).map (· + 1)
  | .look l, ps => ps.filter fun p => l.holds (if p = 0 then none else text[p - 1]?) text[p]?
  | .seq e f, ps => f.ends text (e.ends text ps)
  | .either e f, ps => (e.ends text ps).merge (f.ends text ps)
  | .repeated count e, ps =>
    let bound := text.size + 1
    let qs := Places.iterate (e.ends text) (min count.least bound) ps
    match count.most with
    | none => Places.spread (e.ends text) bound qs qs
    | some most => Places.spread (e.ends text) (min (most - count.least) bound) qs qs

def occursIn (e : Expression) (t : Text) : Bool :=
  !(e.ends t.toArray (List.range (t.length + 1))).isEmpty

def asksForWords : Expression → Bool
  | .empty => false
  | .chars _ => false
  | .look (.word _ unicode) => unicode
  | .look _ => false
  | .seq e f => e.asksForWords || f.asksForWords
  | .either e f => e.asksForWords || f.asksForWords
  | .repeated _ e => e.asksForWords

/-- About how many bytes a machine for the expression takes. -/
def size : Expression → Nat
  | .empty => 32
  | .chars s =>
    match s.ranges with
    | [(lo, hi)] => if lo = hi then 32 * (Char.ofNat lo).utf8Size else if hi ≤ 0x7F then 32 else 400
    | rs => if s.isAscii then 32 + 8 * rs.length else 400
  | .look _ => 32
  | .seq e f => e.size + f.size
  | .either e f => e.size + f.size + 72
  | .repeated count e =>
    match count.most with
    | none => max 1 count.least * e.size + 72
    | some most => most * e.size + (most - count.least) * 40 + 32

end Expression

end WorkspaceRelease.Pattern

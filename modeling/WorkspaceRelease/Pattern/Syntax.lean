import WorkspaceRelease.Pattern.Span

/-!
Patterns as they are written. Every part keeps its place, so that a fault that only its meaning
shows can be marked.
-/

namespace WorkspaceRelease.Pattern

inductive Mode where
  | ignoreCase
  | multiLine
  | dotAll
  | swapGreed
  | unicode
  | crlf
  | spaced
  deriving DecidableEq, Repr

inductive FlagItem where
  | negation
  | mode (m : Mode)
  deriving DecidableEq, Repr

/-- What flags say of a mode: those behind the negation switch it off. -/
def flagState (m : Mode) (on : Bool) : List FlagItem → Option Bool
  | [] => none
  | .negation :: fs => flagState m false fs
  | .mode n :: fs => if n = m then some on else flagState m on fs

structure Literal where
  char : Char
  /-- Two hexadecimal digits, which may stand for a byte. -/
  isByte : Bool
  span : Span
  deriving DecidableEq, Repr

inductive ShorthandKind where
  | digit
  | space
  | word
  deriving DecidableEq, Repr

structure Shorthand where
  kind : ShorthandKind
  negated : Bool
  span : Span
  deriving DecidableEq, Repr

/-- A class of the characters with a property, or with a value of one. -/
structure Property where
  query : Text
  negated : Bool
  span : Span
  deriving DecidableEq, Repr

inductive WordPlace where
  | boundary
  | inner
  | start
  | stop
  | startHalf
  | stopHalf
  deriving DecidableEq, Repr

inductive Anchor where
  | lineStart
  | lineEnd
  | textStart
  | textEnd
  | word (place : WordPlace)
  deriving DecidableEq, Repr

/-- What stands for a single character or place. -/
inductive Primitive where
  | literal (l : Literal)
  | dot (span : Span)
  | anchor (a : Anchor) (span : Span)
  | shorthand (s : Shorthand)
  | property (p : Property)
  deriving DecidableEq, Repr

def Primitive.span : Primitive → Span
  | .literal l => l.span
  | .dot span => span
  | .anchor _ span => span
  | .shorthand s => s.span
  | .property p => p.span

inductive AsciiKind where
  | alnum
  | alpha
  | ascii
  | blank
  | cntrl
  | digit
  | graph
  | lower
  | print
  | punct
  | space
  | upper
  | word
  | xdigit
  deriving DecidableEq, Repr

inductive SetOperation where
  | intersection
  | difference
  | symmetricDifference
  deriving DecidableEq, Repr

inductive ClassSet where
  | empty (span : Span)
  | literal (l : Literal)
  | range (first last : Literal) (span : Span)
  | ascii (kind : AsciiKind) (negated : Bool) (span : Span)
  | shorthand (s : Shorthand)
  | property (p : Property)
  | bracketed (negated : Bool) (set : ClassSet) (span : Span)
  | union (items : List ClassSet) (span : Span)
  | operation (op : SetOperation) (left right : ClassSet) (span : Span)
  deriving Repr

def ClassSet.span : ClassSet → Span
  | .empty span => span
  | .literal l => l.span
  | .range _ _ span => span
  | .ascii _ _ span => span
  | .shorthand s => s.span
  | .property p => p.span
  | .bracketed _ _ span => span
  | .union _ span => span
  | .operation _ _ _ span => span

structure Count where
  least : Nat
  most : Option Nat
  deriving DecidableEq, Repr

inductive Term where
  | empty (span : Span)
  /-- Flags for the rest of the group. -/
  | flags (items : List FlagItem) (span : Span)
  | primitive (p : Primitive)
  | bracketed (set : ClassSet)
  | repetition (count : Count) (term : Term) (span : Span)
  | group (items : List FlagItem) (term : Term) (span : Span)
  | alternation (terms : List Term) (span : Span)
  | concat (terms : List Term) (span : Span)
  deriving Repr

def Term.span : Term → Span
  | .empty span => span
  | .flags _ span => span
  | .primitive p => p.span
  | .bracketed set => set.span
  | .repetition _ _ span => span
  | .group _ _ span => span
  | .alternation _ span => span
  | .concat _ span => span

end WorkspaceRelease.Pattern

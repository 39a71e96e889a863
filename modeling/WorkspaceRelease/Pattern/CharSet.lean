/-!
Sets of characters as ranges of code points. The ranges stand in ascending order, and between two of
them some code point is missing.
-/

namespace WorkspaceRelease.Pattern

structure CharSet where
  ranges : List (Nat × Nat)
  deriving DecidableEq, Repr

namespace CharSet

def empty : CharSet := ⟨[]⟩

/-- Puts a range among others and unites it with those that it meets. -/
def insertRange : Nat × Nat → List (Nat × Nat) → List (Nat × Nat)
  | r, [] => [r]
  | (lo, hi), (a, b) :: rs =>
    if hi + 1 < a then (lo, hi) :: (a, b) :: rs
    else if b + 1 < lo then (a, b) :: insertRange (lo, hi) rs
    else insertRange (min lo a, max hi b) rs

def ofRanges (rs : List (Nat × Nat)) : CharSet := ⟨rs.foldr insertRange []⟩

def ofChar (c : Char) : CharSet := ⟨[(c.toNat, c.toNat)]⟩

def isEmpty (s : CharSet) : Bool := s.ranges.isEmpty

def contains (s : CharSet) (c : Char) : Bool :=
  s.ranges.any fun (lo, hi) => lo ≤ c.toNat && c.toNat ≤ hi

def union (s t : CharSet) : CharSet := ⟨s.ranges.foldr insertRange t.ranges⟩

/-- The ranges between those of a set, from a code point up to another one. -/
def gaps (last : Nat) : Nat → List (Nat × Nat) → List (Nat × Nat)
  | first, [] => if first ≤ last then [(first, last)] else []
  | first, (lo, hi) :: rs =>
    if first < lo then (first, lo - 1) :: gaps last (hi + 1) rs else gaps last (hi + 1) rs

def complement (last : Nat) (s : CharSet) : CharSet := ⟨gaps last 0 s.ranges⟩

def lastCodePoint : Nat := 0x10FFFF

def inter (s t : CharSet) : CharSet :=
  ((s.complement lastCodePoint).union (t.complement lastCodePoint)).complement lastCodePoint

def diff (s t : CharSet) : CharSet := s.inter (t.complement lastCodePoint)

def symmDiff (s t : CharSet) : CharSet := (s.union t).diff (s.inter t)

def isAscii (s : CharSet) : Bool := s.ranges.all fun (_, hi) => hi ≤ 0x7F

def shift (f : Nat → Nat) (s : CharSet) : CharSet :=
  ofRanges (s.ranges.map fun (lo, hi) => (f lo, f hi))

/-- Adds the other case of the letters of the alphabet. -/
def foldCase (s : CharSet) : CharSet :=
  let upper := s.inter ⟨[('A'.toNat, 'Z'.toNat)]⟩
  let lower := s.inter ⟨[('a'.toNat, 'z'.toNat)]⟩
  (s.union (upper.shift (· + 32))).union (lower.shift (· - 32))

end CharSet

end WorkspaceRelease.Pattern

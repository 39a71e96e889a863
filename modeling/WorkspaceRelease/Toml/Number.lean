import WorkspaceRelease.Toml.Quoted
import WorkspaceRelease.Toml.Scalar

/-!
Integer and float literals. Underscores stand between digits only, decimal numbers have no leading
zero, integers fit 64 bits and finite floats round to a finite double.
-/

namespace WorkspaceRelease.Toml.Number

/-- The value of a digit in a base of at most sixteen. -/
def digit? (base : Nat) (c : Char) : Option Nat :=
  match hexDigit? c with
  | some d => if d < base then some d else none
  | none => none

/-- The digits of a run, with each underscore between two of them taken out. -/
def digits? (base : Nat) (t : Text) : Option (List Nat) :=
  let groups := Text.splitOn '_' t
  if groups.all fun g => !g.isEmpty then groups.flatten.mapM (digit? base) else none

def value (base : Nat) (digits : List Nat) : Nat := digits.foldl (fun n d => base * n + d) 0

def natural? (base : Nat) (t : Text) : Option Nat := (digits? base t).map (value base)

/-- A decimal number without a leading zero. -/
def decimal? (t : Text) : Option Nat :=
  match t with
  | ['0'] => some 0
  | '0' :: _ => none
  | _ => natural? 10 t

def sign : Text → Bool × Text
  | '-' :: t => (true, t)
  | '+' :: t => (false, t)
  | t => (false, t)

def inRange (n : Int) : Bool := -((1 <<< 63 : Nat) : Int) ≤ n && n < ((1 <<< 63 : Nat) : Int)

def signed (negative : Bool) (n : Nat) : Int := if negative then -n else n

def integer? (t : Text) : Option Int := do
  let n ← match t with
    | '0' :: 'x' :: t => (natural? 16 t).map Int.ofNat
    | '0' :: 'o' :: t => (natural? 8 t).map Int.ofNat
    | '0' :: 'b' :: t => (natural? 2 t).map Int.ofNat
    | _ => (decimal? (sign t).2).map (signed (sign t).1)
  if inRange n then some n else none

/-- Half the way from the largest double to the next power of two. From here on the nearest double
is infinite. -/
def overflowBound : Nat := 1 <<< 1024 - 1 <<< 970

/-- Whether a number of so many digits, times a power of ten, rounds to an infinite double. The
count of digits settles all but the numbers near the bound. -/
def overflows (digits : Nat) (exponent : Int) : Bool :=
  let size := (Nat.toDigits 10 digits).length + exponent
  if digits = 0 then false
  else if size < 309 then false
  else if 310 < size then true
  else overflowBound * Nat.pow 10 (-exponent).toNat ≤ digits * Nat.pow 10 exponent.toNat

def exponent? (t : Text) : Option Int := (natural? 10 (sign t).2).map (signed (sign t).1)

def finite? (negative : Bool) (whole : Text) (fraction : Option Text) (exponent : Int) :
    Option Decimal := do
  let n ← decimal? whole
  let after ← match fraction with
    | some t => digits? 10 t
    | none => some []
  let digits := n * Nat.pow 10 after.length + value 10 after
  let exponent := exponent - after.length
  if overflows digits exponent then none else some (.finite negative digits exponent)

def float? (t : Text) : Option Decimal :=
  let (negative, t) := sign t
  if t = "inf".toList then some (.infinity negative)
  else if t = "nan".toList then some (.nan negative)
  else
    let mantissa := t.takeWhile fun c => c ≠ 'e' && c ≠ 'E'
    match t.drop mantissa.length, Text.cut? '.' mantissa with
    | [], none => none
    | [], some (whole, fraction) => finite? negative whole (some fraction) 0
    | _ :: e, none => do finite? negative mantissa none (← exponent? e)
    | _ :: e, some (whole, fraction) => do finite? negative whole (some fraction) (← exponent? e)

end WorkspaceRelease.Toml.Number

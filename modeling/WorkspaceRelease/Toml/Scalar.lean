import WorkspaceRelease.Text.Basic

/-!
The values that a TOML literal can denote, without a trace of how they were written.
-/

namespace WorkspaceRelease.Toml

structure Date where
  year : Nat
  month : Nat
  day : Nat
  deriving DecidableEq, Repr

structure Time where
  hour : Nat
  minute : Nat
  second : Nat
  /-- The digits after the decimal point of the second. -/
  fraction : Text
  deriving DecidableEq, Repr

inductive Offset where
  | utc
  | minutes (east : Int)
  deriving DecidableEq, Repr

inductive DateTime where
  | date (d : Date)
  | time (t : Time)
  | dateTime (d : Date) (t : Time)
  | instant (d : Date) (t : Time) (o : Offset)
  deriving DecidableEq, Repr

/-- A decimal number stays the exact number that was written: the digits times a power of ten. -/
inductive Decimal where
  | finite (negative : Bool) (digits : Nat) (exponent : Int)
  | infinity (negative : Bool)
  | nan (negative : Bool)
  deriving DecidableEq, Repr

inductive Scalar where
  | string (value : Text)
  | integer (value : Int)
  | float (value : Decimal)
  | boolean (value : Bool)
  | dateTime (value : DateTime)
  deriving DecidableEq, Repr

end WorkspaceRelease.Toml

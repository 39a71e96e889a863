import WorkspaceRelease.Toml.Scalar

/-!
Date and time literals. Months have the lengths of the Gregorian calendar; a second of 60 is
admitted, and seconds may be left out.
-/

namespace WorkspaceRelease.Toml.DateTime

def isLeapYear (year : Nat) : Bool := year % 4 = 0 && (year % 100 ≠ 0 || year % 400 = 0)

def daysInMonth (year month : Nat) : Nat :=
  if month = 2 then (if isLeapYear year then 29 else 28)
  else if [4, 6, 9, 11].contains month then 30
  else 31

/-- A field of exactly so many decimal digits. -/
def field? (width : Nat) (t : Text) : Option (Nat × Text) :=
  let digits := t.take width
  if digits.length = width && digits.all Char.isDigit then
    some (digits.foldl (fun n c => 10 * n + (c.toNat - '0'.toNat)) 0, t.drop width)
  else none

def fieldAfter? (separator : Char) : Text → Option (Nat × Text)
  | [] => none
  | c :: t => if c = separator then field? 2 t else none

def date? (t : Text) : Option (Date × Text) := do
  let (year, t) ← field? 4 t
  let (month, t) ← fieldAfter? '-' t
  let (day, t) ← fieldAfter? '-' t
  if 1 ≤ month && month ≤ 12 && 1 ≤ day && day ≤ daysInMonth year month then
    some (⟨year, month, day⟩, t)
  else none

def fraction? : Text → Option (Text × Text)
  | '.' :: t =>
    let digits := t.takeWhile Char.isDigit
    if digits.isEmpty then none else some (digits, t.dropWhile Char.isDigit)
  | t => some ([], t)

def time? (t : Text) : Option (Time × Text) := do
  let (hour, t) ← field? 2 t
  let (minute, t) ← fieldAfter? ':' t
  let (second, fraction, t) ← match t with
    | ':' :: _ => do
      let (second, t) ← fieldAfter? ':' t
      let (fraction, t) ← fraction? t
      some (second, fraction, t)
    | _ => some (0, [], t)
  if hour ≤ 23 && minute ≤ 59 && second ≤ 60 then some (⟨hour, minute, second, fraction⟩, t)
  else none

def offset? : Text → Option (Offset × Text)
  | 'Z' :: t => some (.utc, t)
  | 'z' :: t => some (.utc, t)
  | c :: t => do
    let (hour, t) ← field? 2 t
    let (minute, t) ← fieldAfter? ':' t
    if (c = '+' || c = '-') && hour ≤ 23 && minute ≤ 59 then
      let east : Int := 60 * hour + minute
      some (.minutes (if c = '-' then -east else east), t)
    else none
  | [] => none

def read? (t : Text) : Option DateTime :=
  match date? t with
  | none => do
    let (clock, rest) ← time? t
    if rest.isEmpty then some (.time clock) else none
  | some (day, []) => some (.date day)
  | some (day, c :: t) => do
    let (clock, rest) ← time? t
    if !(c = 'T' || c = 't' || c = ' ') then none
    else if rest.isEmpty then some (.dateTime day clock)
    else
      let (zone, rest) ← offset? rest
      if rest.isEmpty then some (.instant day clock zone) else none

end WorkspaceRelease.Toml.DateTime

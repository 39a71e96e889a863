/-!
Text is a list of characters, so that every reader and writer of this library is a function on
lists. Strings appear only as literals and at the program's border.
-/

namespace WorkspaceRelease

abbrev Text := List Char

namespace Text

/-- The pieces between the separators; there is always one piece more than there are separators. -/
def splitOn (sep : Char) : Text → List Text
  | [] => [[]]
  | c :: s =>
    if c = sep then [] :: splitOn sep s
    else match splitOn sep s with
      | [] => [[c]]
      | piece :: pieces => (c :: piece) :: pieces

def joinWith (sep : Text) : List Text → Text
  | [] => []
  | [piece] => piece
  | piece :: pieces => piece ++ sep ++ joinWith sep pieces

def cut? (sep : Char) : Text → Option (Text × Text)
  | [] => none
  | c :: s => if c = sep then some ([], s) else (cut? sep s).map fun (a, b) => (c :: a, b)

def ofNat (n : Nat) : Text := Nat.toDigits 10 n

/-- The number of bytes in the UTF-8 encoding. -/
def byteSize (t : Text) : Nat := t.foldr (fun c n => c.utf8Size + n) 0

theorem joinWith_splitOn (sep : Char) (t : Text) : joinWith [sep] (splitOn sep t) = t := by
  induction t with
  | nil => rfl
  | cons c s ih =>
    by_cases h : c = sep
    · cases hs : splitOn sep s with
      | nil => simp_all [splitOn, joinWith]
      | cons p ps => simp_all [splitOn, joinWith]
    · cases hs : splitOn sep s with
      | nil => simp_all [splitOn, joinWith]
      | cons p ps => cases ps <;> simp_all [splitOn, joinWith]

end Text

end WorkspaceRelease

import WorkspaceRelease.Toml.Fault
import WorkspaceRelease.Toml.Quoted

/-!
Keys with the text they were written as. The blank space around a whole dotted path belongs to its
last key; the space beside a dot belongs to the key it touches.
-/

namespace WorkspaceRelease.Toml

/-- The text kept before and after a token. Where none is kept, the place decides. -/
structure Padding where
  before : Option Text := none
  after : Option Text := none
  deriving DecidableEq, Repr

/-- What a place puts before and after a token that has no padding of its own. -/
structure Margin where
  before : Text
  after : Text
  deriving DecidableEq, Repr

def Padding.around (pad : Padding) (margin : Margin) (t : Text) : Text :=
  pad.before.getD margin.before ++ t ++ pad.after.getD margin.after

structure Key where
  name : Text
  written : Text
  /-- Around the path that the key ends. -/
  ending : Padding := {}
  beforeDotted : Text := []
  afterDotted : Text := []
  deriving DecidableEq, Repr

namespace Key

def isBare (c : Char) : Bool := c.isAlphanum || c = '_' || c = '-'

/-- A key of which only the name is given; the name has to be bare. -/
def ofName (name : Text) : Key := { name, written := name }

/-- A bare or quoted key: its name, how it is written, and the rest. -/
def simple? (s : Text) : Option (Text × Text × Text) :=
  match Quoted.singleLine? s with
  | some r => some (r.value, r.written, r.rest)
  | none =>
    match s.takeWhile isBare with
    | [] => none
    | word => some (word, word, s.dropWhile isBare)

/-- A key of a path as it stands between two dots. -/
structure Segment where
  before : Text
  name : Text
  written : Text
  after : Text
  deriving DecidableEq, Repr

def segments? : Nat → Text → Option (List Segment × Text)
  | 0, _ => none
  | fuel + 1, s => do
    let (before, s) := spaces s
    let (name, written, s) ← simple? s
    let (after, s) := spaces s
    match s with
    | '.' :: s => do
      let (segments, s) ← segments? fuel s
      some (⟨before, name, written, after⟩ :: segments, s)
    | _ => some ([⟨before, name, written, after⟩], s)

/-- A dotted path has at most this many keys. -/
def pathLimit : Nat := 80

/-- Reads a dotted path. Its keys are read before they are counted. -/
def readPath (s : Text) : Except Fault (List Segment × Text) :=
  match segments? (s.length + 1) s with
  | none => .error .malformed
  | some (segments, s) =>
    if pathLimit < segments.length then .error .pathTooLong else .ok (segments, s)

def endingWith (before after : Text) : List Segment → List Key
  | [] => []
  | [x] =>
    [{ name := x.name, written := x.written, ending := ⟨some before, some (x.after ++ after)⟩,
       beforeDotted := x.before }]
  | x :: xs =>
    { name := x.name, written := x.written, beforeDotted := x.before, afterDotted := x.after } ::
      endingWith before after xs

def ofSegments (before after : Text) : List Segment → List Key
  | [] => []
  | x :: xs => endingWith (before ++ x.before) after ({ x with before := [] } :: xs)

def renderDotted : List Key → Text
  | [] => []
  | [k] => k.written
  | k :: l :: ks => k.written ++ k.afterDotted ++ '.' :: l.beforeDotted ++ renderDotted (l :: ks)

def renderPath (margin : Margin) (path : List Key) : Text :=
  match path.getLast? with
  | none => []
  | some last => last.ending.around margin (renderDotted path)

end Key

end WorkspaceRelease.Toml

import WorkspaceRelease.Pattern.Escape

/-!
Classes in brackets. They nest, and two operands stand on both sides of an operator; the operators
bind alike, from left to right.
-/

namespace WorkspaceRelease.Pattern

open Reading

def asciiKinds : List (Text × AsciiKind) :=
  [("alnum", .alnum), ("alpha", .alpha), ("ascii", .ascii), ("blank", .blank), ("cntrl", .cntrl),
   ("digit", .digit), ("graph", .graph), ("lower", .lower), ("print", .print), ("punct", .punct),
   ("space", .space), ("upper", .upper), ("word", .word), ("xdigit", .xdigit)].map
    fun (name, kind) => (name.toList, kind)

/-- A class with a name, such as `[:alpha:]`; other text is left for a class in brackets. -/
def readAscii? : Reading (Option ClassSet) := do
  let k ← get
  match k.rest with
  | '[' :: ':' :: s =>
    let (negated, s) := match s with
      | '^' :: s => (true, s)
      | s => (false, s)
    let name := s.takeWhile (· ≠ ':')
    match asciiKinds.lookup name, s.drop name.length with
    | some kind, ':' :: ']' :: s =>
      let behind := k.advance (k.rest.length - s.length)
      set behind
      return some (.ascii kind negated ⟨k.position, behind.position⟩)
    | _, _ => return none
  | _ => return none

/-- A primitive as a member of a class. -/
def Primitive.member : Primitive → Reading ClassSet
  | .literal l => return .literal l
  | .shorthand s => return .shorthand s
  | .property p => return .property p
  | p => fail .classEscapeInvalid p.span

/-- A primitive as the bound of a range. -/
def Primitive.bound : Primitive → Reading Literal
  | .literal l => return l
  | p => fail .classRangeLiteral p.span

def readBound : Reading Primitive := do
  match ← next? with
  | none => failHere .classUnclosed
  | some '\\' => readEscape
  | some c =>
    let span ← nextSpan
    let _ ← bump
    return .literal ⟨c, false, span⟩

/-- A character, a class without brackets, or a range. A dash before the closing bracket or another
dash makes no range. -/
def readMember (opened : Span) : Reading ClassSet := do
  let first ← readBound
  skip
  let k ← get
  if k.rest.isEmpty then fail .classUnclosed opened
  let behind := k.bump.skip.rest.head?
  if k.rest.head? ≠ some '-' || behind = some ']' || behind = some '-' then first.member
  else
    match ← bumpSkip with
    | none => fail .classUnclosed opened
    | some _ =>
      let last ← readBound
      let span : Span := ⟨first.span.start, last.span.stop⟩
      let first ← first.bound
      let last ← last.bound
      if last.char < first.char then fail .classRangeInvalid span
      return .range first last span

/-- What is known of a class behind its opening bracket. -/
structure Opening where
  negated : Bool
  /-- Dashes, or a closing bracket, that can only be characters of the class. -/
  items : List ClassSet
  itemsStart : Position
  span : Span

def readDashes (start : Position) : Nat → Reading (List ClassSet)
  | 0 => return []
  | fuel + 1 => do
    match ← next? with
    | some '-' =>
      let span ← nextSpan
      match ← bumpSkip with
      | none => fail .classUnclosed ⟨start, start⟩
      | some _ => return .literal ⟨'-', false, span⟩ :: (← readDashes start fuel)
    | _ => return []

def readOpening : Reading Opening := do
  let start ← here
  let unclosed {α : Type} : Reading α := failFrom .classUnclosed start
  match ← bumpSkip with
  | none => unclosed
  | some c =>
    let negated := c = '^'
    if negated then
      if (← bumpSkip).isNone then unclosed
    let itemsStart ← here
    let dashes ← readDashes start (← get).rest.length
    if dashes.isEmpty && (← next?) = some ']' then
      let span ← nextSpan
      if (← bumpSkip).isNone then unclosed
      return ⟨negated, [.literal ⟨']', false, span⟩], itemsStart, ← spanFrom start⟩
    return ⟨negated, dashes, itemsStart, ← spanFrom start⟩

/-- The members since the last operator, and the operator with what stands before it. -/
structure Members where
  start : Position
  items : List ClassSet
  pending : Option (SetOperation × ClassSet)

namespace Members

def push (m : Members) (item : ClassSet) : Members := { m with items := m.items ++ [item] }

/-- The members as one class. -/
def operand (m : Members) : ClassSet :=
  match m.items with
  | [] => .empty ⟨m.start, m.start⟩
  | [item] => item
  | item :: items =>
    let last := (items.getLast?).getD item
    .union (item :: items) ⟨item.span.start, last.span.stop⟩

/-- The class up to the cursor. -/
def close (m : Members) : ClassSet :=
  let right := m.operand
  match m.pending with
  | none => right
  | some (op, left) => .operation op left right ⟨left.span.start, right.span.stop⟩

end Members

def readOperator? : Reading (Option SetOperation) := do
  if ← accept "&&".toList then return some .intersection
  else if ← accept "--".toList then return some .difference
  else if ← accept "~~".toList then return some .symmetricDifference
  else return none

/-- The rest of a class behind its opening. -/
def readMembers : Nat → Opening → Members → Reading ClassSet
  | 0, o, _ => fail .classUnclosed o.span
  | fuel + 1, o, m => do
    skip
    match ← next? with
    | none => fail .classUnclosed o.span
    | some ']' =>
      let _ ← bump
      return .bracketed o.negated m.close (← spanFrom o.span.start)
    | some '[' =>
      match ← readAscii? with
      | some item => readMembers fuel o (m.push item)
      | none =>
        let inner ← readOpening
        let item ← readMembers fuel inner ⟨inner.itemsStart, inner.items, none⟩
        readMembers fuel o (m.push item)
    | some _ =>
      match ← readOperator? with
      | some op => readMembers fuel o ⟨← here, [], some (op, m.close)⟩
      | none => readMembers fuel o (m.push (← readMember o.span))

/-- A class, from its opening bracket on. -/
def readBracketed : Reading ClassSet := do
  let o ← readOpening
  readMembers ((← get).rest.length + 1) o ⟨o.itemsStart, o.items, none⟩

end WorkspaceRelease.Pattern

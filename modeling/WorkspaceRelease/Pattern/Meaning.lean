import WorkspaceRelease.Pattern.Expression
import WorkspaceRelease.Pattern.Fault

/-!
The expression that a term stands for. Flags decide, and some terms stand for nothing here: without
tables of Unicode there are no classes of its properties, and letters have no other case unless only
ASCII is meant.
-/

namespace WorkspaceRelease.Pattern

structure Modes where
  ignoreCase : Bool := false
  multiLine : Bool := false
  dotAll : Bool := false
  crlf : Bool := false
  unicode : Bool := true
  deriving DecidableEq, Repr

def Modes.apply (m : Modes) (items : List FlagItem) : Modes where
  ignoreCase := (flagState .ignoreCase true items).getD m.ignoreCase
  multiLine := (flagState .multiLine true items).getD m.multiLine
  dotAll := (flagState .dotAll true items).getD m.dotAll
  crlf := (flagState .crlf true items).getD m.crlf
  unicode := (flagState .unicode true items).getD m.unicode

abbrev Meant := Except Fault

def refuse {α : Type} (reason : Reason) (span : Span) : Meant α := .error { reason, span }

def charRanges (rs : List (Char × Char)) : CharSet :=
  CharSet.ofRanges (rs.map fun (lo, hi) => (lo.toNat, hi.toNat))

def AsciiKind.chars : AsciiKind → CharSet
  | .alnum => charRanges [('0', '9'), ('A', 'Z'), ('a', 'z')]
  | .alpha => charRanges [('A', 'Z'), ('a', 'z')]
  | .ascii => charRanges [('\x00', '\x7f')]
  | .blank => charRanges [('\t', '\t'), (' ', ' ')]
  | .cntrl => charRanges [('\x00', '\x1f'), ('\x7f', '\x7f')]
  | .digit => charRanges [('0', '9')]
  | .graph => charRanges [('!', '~')]
  | .lower => charRanges [('a', 'z')]
  | .print => charRanges [(' ', '~')]
  | .punct => charRanges [('!', '/'), (':', '@'), ('[', '\x60'), ('\x7b', '~')]
  | .space => charRanges [('\t', '\r'), (' ', ' ')]
  | .upper => charRanges [('A', 'Z')]
  | .word => charRanges [('0', '9'), ('A', 'Z'), ('_', '_'), ('a', 'z')]
  | .xdigit => charRanges [('0', '9'), ('A', 'F'), ('a', 'f')]

def ShorthandKind.ascii : ShorthandKind → AsciiKind
  | .digit => .digit
  | .space => .space
  | .word => .word

namespace Modes

/-- A set with its other cases and then without its characters, as a class asks for. Where only ASCII
is meant, the rest of a set would be parts of characters. -/
def settle (m : Modes) (negated : Bool) (span : Span) (s : CharSet) : Meant CharSet :=
  if m.unicode then
    if m.ignoreCase && !s.isEmpty then refuse .caseUnavailable span
    else .ok (if negated then s.complement CharSet.lastCodePoint else s)
  else
    let s := if m.ignoreCase then s.foldCase else s
    let s := if negated then s.complement 0xFF else s
    if s.isAscii then .ok s else refuse .invalidUtf8 span

def shorthand (m : Modes) (s : Shorthand) : Meant CharSet :=
  if m.unicode then refuse .shorthandUnavailable s.span
  else { m with ignoreCase := false }.settle s.negated s.span s.kind.ascii.chars

/-- The name of a property in lower case, without what may stand between its words. -/
def propertyName (query : Text) : Text :=
  let word := (query.filter fun c => c ≠ ' ' && c ≠ '_' && c ≠ '-' && c.toNat ≤ 0x7F).map Char.toLower
  if (query.take 2).map Char.toLower = "is".toList then word.drop 2 else word

/-- No property is known. Three names are short for values of one. -/
def property (m : Modes) (p : Property) : Meant CharSet :=
  if !m.unicode then refuse .notInBytes p.span
  else if ["cf".toList, "sc".toList, "lc".toList].contains (propertyName p.query) then
    refuse .propertyValueNotFound p.span
  else refuse .propertyNotFound p.span

/-- The character of a literal, which is not to be a byte of a longer one. -/
def literal (m : Modes) (l : Literal) : Meant Char :=
  if !m.unicode && l.isByte && 0x7F < l.char.toNat then refuse .invalidUtf8 l.span else .ok l.char

def classLiteral (m : Modes) (l : Literal) : Meant Char := do
  let c ← m.literal l
  if !m.unicode && 0x7F < c.toNat then refuse .notInBytes l.span else .ok c

def fold (m : Modes) (span : Span) (s : CharSet) : Meant CharSet :=
  if m.ignoreCase && m.unicode && !s.isEmpty then refuse .caseUnavailable span
  else .ok (if m.ignoreCase then s.foldCase else s)

end Modes

def SetOperation.apply (s t : CharSet) : SetOperation → CharSet
  | .intersection => s.inter t
  | .difference => s.diff t
  | .symmetricDifference => s.symmDiff t

mutual

def ClassSet.chars (m : Modes) : ClassSet → Meant CharSet
  | .empty _ => .ok .empty
  | .literal l => return .ofChar (← m.classLiteral l)
  | .range first last _ => do
    let first ← m.classLiteral first
    let last ← m.classLiteral last
    return charRanges [(first, last)]
  | .ascii kind negated span => m.settle negated span kind.chars
  | .shorthand s => m.shorthand s
  | .property p => m.property p
  | .bracketed negated set span => do m.settle negated span (← set.chars m)
  | .union items _ => ClassSet.allChars m items
  | .operation op left right _ => do
    let s ← left.chars m
    let t ← right.chars m
    let t ← m.fold right.span t
    let s ← m.fold left.span s
    return op.apply s t

def ClassSet.allChars (m : Modes) : List ClassSet → Meant CharSet
  | [] => .ok .empty
  | c :: cs => do
    let s ← c.chars m
    let t ← ClassSet.allChars m cs
    return s.union t

end

def Anchor.look (m : Modes) : Anchor → Look
  | .lineStart => if m.multiLine then .lineStart m.crlf else .textStart
  | .lineEnd => if m.multiLine then .lineEnd m.crlf else .textEnd
  | .textStart => .textStart
  | .textEnd => .textEnd
  | .word place => .word place m.unicode

def Primitive.meaning (m : Modes) : Primitive → Meant Expression
  | .literal l => do
    let c ← m.literal l
    if !m.ignoreCase then return .chars (.ofChar c)
    else if m.unicode then refuse .caseUnavailable l.span
    else return .chars (CharSet.ofChar c).foldCase
  | .dot span =>
    if !m.unicode then refuse .invalidUtf8 span
    else
      let ends : CharSet :=
        if m.dotAll then .empty
        else if m.crlf then charRanges [('\n', '\n'), ('\r', '\r')]
        else .ofChar '\n'
      .ok (.chars (ends.complement CharSet.lastCodePoint))
  | .anchor a _ => .ok (.look (a.look m))
  | .shorthand s => return .chars (← m.shorthand s)
  | .property p => return .chars (← m.property p)

mutual

def Term.meaning (m : Modes) : Term → Meant (Expression × Modes)
  | .empty _ => .ok (.empty, m)
  | .flags items _ => .ok (.empty, m.apply items)
  | .primitive p => return (← p.meaning m, m)
  | .bracketed set => return (.chars (← set.chars m), m)
  | .repetition count t _ => do
    let (e, m) ← t.meaning m
    return (if count.most = some 0 then .empty else .repeated count e, m)
  | .group items t _ => do
    let (e, _) ← t.meaning (m.apply items)
    return (e, m)
  | .alternation ts _ => Term.anyOf m ts
  | .concat ts _ => Term.allOf m ts

def Term.allOf (m : Modes) : List Term → Meant (Expression × Modes)
  | [] => .ok (.empty, m)
  | t :: ts => do
    let (e, m) ← t.meaning m
    let (f, m) ← Term.allOf m ts
    return (.seq e f, m)

/-- Flags of an alternative hold in those behind it. -/
def Term.anyOf (m : Modes) : List Term → Meant (Expression × Modes)
  | [] => .ok (.chars .empty, m)
  | t :: ts => do
    let (e, m) ← t.meaning m
    let (f, m) ← Term.anyOf m ts
    return (.either e f, m)

end

end WorkspaceRelease.Pattern

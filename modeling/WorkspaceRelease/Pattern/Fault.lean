import WorkspaceRelease.Pattern.Span
import WorkspaceRelease.Text.Lines

/-!
Why a text is not a pattern, and how that is shown: the pattern, marks under the part that is at
fault, and the reason.
-/

namespace WorkspaceRelease.Pattern

/-- Groups and brackets nest at most this deep. -/
def nestLimit : Nat := 250

inductive Reason where
  | classEscapeInvalid
  | classRangeInvalid
  | classRangeLiteral
  | classUnclosed
  | decimalInvalid
  | escapeHexEmpty
  | escapeHexInvalid
  | escapeHexInvalidDigit
  | escapeUnfinished
  | escapeUnrecognized
  | flagDanglingNegation
  | flagDuplicate
  | flagRepeatedNegation
  | flagUnfinished
  | flagUnrecognized
  | groupNameDuplicate
  | groupNameEmpty
  | groupNameInvalid
  | groupNameUnfinished
  | groupUnclosed
  | groupUnopened
  | nestLimitExceeded
  | repetitionCountEmpty
  | repetitionCountInvalid
  | repetitionCountUnclosed
  | repetitionMissing
  | wordBoundaryOrCountUnfinished
  | wordBoundaryUnclosed
  | wordBoundaryUnrecognized
  | propertyInvalid
  | backreference
  | lookAround
  | notInBytes
  | invalidUtf8
  | propertyNotFound
  | propertyValueNotFound
  | shorthandUnavailable
  | caseUnavailable
  deriving DecidableEq, Repr

def Reason.sentence : Reason → String
  | .classEscapeInvalid => "invalid escape sequence found in character class"
  | .classRangeInvalid => "invalid character class range, the start must be <= the end"
  | .classRangeLiteral => "invalid range boundary, must be a literal"
  | .classUnclosed => "unclosed character class"
  | .decimalInvalid => "decimal literal invalid"
  | .escapeHexEmpty => "hexadecimal literal empty"
  | .escapeHexInvalid => "hexadecimal literal is not a Unicode scalar value"
  | .escapeHexInvalidDigit => "invalid hexadecimal digit"
  | .escapeUnfinished => "incomplete escape sequence, reached end of pattern prematurely"
  | .escapeUnrecognized => "unrecognized escape sequence"
  | .flagDanglingNegation => "dangling flag negation operator"
  | .flagDuplicate => "duplicate flag"
  | .flagRepeatedNegation => "flag negation operator repeated"
  | .flagUnfinished => "expected flag but got end of regex"
  | .flagUnrecognized => "unrecognized flag"
  | .groupNameDuplicate => "duplicate capture group name"
  | .groupNameEmpty => "empty capture group name"
  | .groupNameInvalid => "invalid capture group character"
  | .groupNameUnfinished => "unclosed capture group name"
  | .groupUnclosed => "unclosed group"
  | .groupUnopened => "unopened group"
  | .nestLimitExceeded => "exceed the maximum number of nested parentheses/brackets (250)"
  | .repetitionCountEmpty => "repetition quantifier expects a valid decimal"
  | .repetitionCountInvalid => "invalid repetition count range, the start must be <= the end"
  | .repetitionCountUnclosed => "unclosed counted repetition"
  | .repetitionMissing => "repetition operator missing expression"
  | .wordBoundaryOrCountUnfinished =>
    "found either the beginning of a special word boundary or a bounded repetition on a \\b with " ++
      "an opening brace, but no closing brace"
  | .wordBoundaryUnclosed =>
    "special word boundary assertion is either unclosed or contains an invalid character"
  | .wordBoundaryUnrecognized =>
    "unrecognized special word boundary assertion, valid choices are: start, end, start-half or " ++
      "end-half"
  | .propertyInvalid => "invalid Unicode character class"
  | .backreference => "backreferences are not supported"
  | .lookAround => "look-around, including look-ahead and look-behind, is not supported"
  | .notInBytes => "Unicode not allowed here"
  | .invalidUtf8 => "pattern can match invalid UTF-8"
  | .propertyNotFound => "Unicode property not found"
  | .propertyValueNotFound => "Unicode property value not found"
  | .shorthandUnavailable =>
    "Unicode-aware Perl class not found (make sure the unicode-perl feature is enabled)"
  | .caseUnavailable =>
    "Unicode-aware case insensitivity matching is not available " ++
      "(make sure the unicode-case feature is enabled)"

structure Fault where
  reason : Reason
  span : Span
  /-- A second part of the pattern that the fault is about. -/
  related : Option Span := none
  deriving DecidableEq, Repr

/-- A part of several lines is not marked but told. -/
def Span.note (s : Span) : Text :=
  "on line ".toList ++ Text.ofNat s.start.line ++ " (column ".toList ++ Text.ofNat s.start.column ++
    ") through line ".toList ++ Text.ofNat s.stop.line ++ " (column ".toList ++
    Text.ofNat (s.stop.column - 1) ++ ")\n".toList

namespace Fault

def spans (f : Fault) : List Span :=
  match f.related with
  | none => [f.span]
  | some r => if f.span.before r then [f.span, r] else [r, f.span]

/-- Marks under the columns of the spans, from a column on. An empty span has one mark. -/
def marks : Nat → List Span → Text
  | _, [] => []
  | column, s :: ss =>
    let width := max 1 (s.stop.column - s.start.column)
    let start := max column s.start.column
    List.replicate (start - column) ' ' ++ List.replicate width '^' ++ marks (start + width) ss

/-- The lines of a pattern, each after a margin and with marks below it. -/
def notate (margin : Nat → Text) (spans : List Span) : Nat → List Text → Text
  | _, [] => []
  | number, line :: lines =>
    let here := spans.filter fun s => s.isOneLine && s.start.line = number
    let below :=
      if here.isEmpty then []
      else List.replicate (margin number).length ' ' ++ marks 1 here ++ ['\n']
    margin number ++ line ++ '\n' :: below ++ notate margin spans (number + 1) lines

def lineMargin (count number : Nat) : Text :=
  let n := Text.ofNat number
  List.replicate ((Text.ofNat count).length - n.length) ' ' ++ n ++ ": ".toList

def divider : Text := List.replicate 79 '~' ++ ['\n']

/-- A pattern of several lines has them numbered between two dividers. -/
def display (pattern : Text) (f : Fault) : Text :=
  let lines := pattern.lines
  let shown :=
    if pattern.contains '\n' then
      let count := lines.length + if pattern.getLast? = some '\n' then 1 else 0
      divider ++ notate (lineMargin count) f.spans 1 lines ++ divider ++
        (f.spans.filter fun s => !s.isOneLine).flatMap Span.note
    else notate (fun _ => "    ".toList) f.spans 1 lines
  "regex parse error:\n".toList ++ shown ++ "error: ".toList ++ f.reason.sentence.toList

end Fault

end WorkspaceRelease.Pattern

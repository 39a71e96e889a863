import WorkspaceRelease.Toml.Value

/-!
The outline of a text: brackets, braces, separators and line ends, whatever the words between them
say. A text with a broken outline is malformed before any of its words is looked at.
-/

namespace WorkspaceRelease.Toml.Outline

inductive Token where
  | dot
  | equals
  | comma
  | openBracket
  | closeBracket
  | openBrace
  | closeBrace
  | space
  | lineEnd
  | comment
  | quoted
  | word
  deriving DecidableEq, Repr

def marks : List (Char × Token) :=
  [('.', .dot), ('=', .equals), (',', .comma), ('[', .openBracket), (']', .closeBracket),
   ('\x7b', .openBrace), ('\x7d', .closeBrace)]

/-- A word may hold quotes: the one that opened it may be missing. -/
def endsWord (c : Char) : Bool :=
  isSpace c || c = '#' || c = '\r' || c = '\n' || (marks.lookup c).isSome

/-- The text behind a quoted one on a single line, which the end of the line ends at the latest. -/
def behindQuoted (quote : Char) (escaping : Bool) : Text → Text
  | [] => []
  | c :: s =>
    if c = quote then s
    else if c = '\n' then c :: s
    else if escaping && c = '\\' then
      match s with
      | d :: s => if d = quote || d = '\\' then behindQuoted quote escaping s
          else behindQuoted quote escaping (d :: s)
      | [] => []
    else behindQuoted quote escaping s

def dropQuotes (quote : Char) : Nat → Text → Text
  | n + 1, c :: s => if c = quote then dropQuotes quote n s else c :: s
  | _, s => s

/-- The text behind one in three quotes, which the end of the text ends at the latest. -/
def behindQuotedLines (quote : Char) (escaping : Bool) : Text → Text
  | [] => []
  | c :: s =>
    if c = quote && s.take 2 = [quote, quote] then dropQuotes quote 2 (s.drop 2)
    else if escaping && c = '\\' then
      match s with
      | d :: s => if d = quote || d = '\\' then behindQuotedLines quote escaping s
          else behindQuotedLines quote escaping (d :: s)
      | [] => []
    else behindQuotedLines quote escaping s

def isLineChar (c : Char) : Bool := c ≠ '\r' && c ≠ '\n'

/-- The next token and the text behind it. Comments have to be printable, and a carriage return
belongs to a line end. -/
def next? : Text → Option (Token × Text)
  | [] => none
  | '\n' :: s => some (.lineEnd, s)
  | '\r' :: '\n' :: s => some (.lineEnd, s)
  | '\r' :: _ => none
  | '#' :: s =>
    if (s.takeWhile isLineChar).all isPrintable then some (.comment, s.dropWhile isLineChar) else none
  | '"' :: '"' :: '"' :: s => some (.quoted, behindQuotedLines '"' true s)
  | '\'' :: '\'' :: '\'' :: s => some (.quoted, behindQuotedLines '\'' false s)
  | '"' :: s => some (.quoted, behindQuoted '"' true s)
  | '\'' :: s => some (.quoted, behindQuoted '\'' false s)
  | c :: s =>
    if isSpace c then some (.space, s.dropWhile isSpace)
    else match marks.lookup c with
      | some mark => some (mark, s)
      | none => some (.word, s.dropWhile fun c => !endsWord c)

def tokens? : Nat → Text → Option (List Token)
  | _, [] => some []
  | 0, _ => none
  | fuel + 1, s => do
    let (token, s) ← next? s
    some (token :: (← tokens? fuel s))

inductive Nest where
  | array
  | table
  deriving DecidableEq, Repr

/-- Where in a statement the outline stands. -/
inductive Place where
  /-- The start of a line. -/
  | line
  /-- Behind the first bracket of a header. -/
  | header
  /-- Before a key of a header, behind a dot or a bracket. -/
  | headerKey (kind : HeaderKind)
  /-- Behind a key of a header. -/
  | headerPath (kind : HeaderKind)
  /-- Before the second of two closing brackets. -/
  | headerClose
  /-- In a header without a key, of which the rest does not matter. -/
  | skipped
  /-- Before a key or a closing brace. -/
  | field
  /-- Behind a dot of a path. -/
  | dot
  /-- Behind a key of a path. -/
  | path
  /-- Behind a path and a line end. -/
  | equals
  | value
  /-- In a value without quotes, which may hold blank space. -/
  | word
  /-- Before an item or a closing bracket. -/
  | item
  | afterValue
  deriving DecidableEq, Repr

structure State where
  place : Place
  nests : List Nest
  deriving DecidableEq, Repr

def State.at (st : State) (place : Place) : Option State := some { st with place }

def State.enter (st : State) (nest : Nest) (place : Place) : Option State :=
  if st.nests.length < nestingLimit then some ⟨place, nest :: st.nests⟩ else none

def State.leave (st : State) : Option State := some ⟨.afterValue, st.nests.tail⟩

def afterValue (st : State) (token : Token) : Option State :=
  match st.nests, token with
  | _, .space | _, .comment => st.at .afterValue
  | [], .lineEnd => st.at .line
  | _, .lineEnd => st.at .afterValue
  | .array :: _, .comma => st.at .item
  | .array :: _, .closeBracket => st.leave
  | .table :: _, .comma => st.at .field
  | .table :: _, .closeBrace => st.leave
  | _, _ => none

/-- The start of a value, where brackets and braces nest. -/
def startValue (st : State) (token : Token) : Option State :=
  match token with
  | .quoted => st.at .afterValue
  | .word | .dot => st.at .word
  | .openBracket => st.enter .array .item
  | .openBrace => st.enter .table .field
  | _ => none

def path (st : State) (token : Token) : Option State :=
  match st.nests, token with
  | _, .dot => st.at .dot
  | _, .equals => st.at .value
  | _ :: _, .comment | _ :: _, .lineEnd => st.at .equals
  | _, _ => none

/-- A header without a key is at fault for that alone. -/
def headerKey (kind : HeaderKind) (st : State) (token : Token) : Option State :=
  match kind, token with
  | _, .space | _, .dot => st.at (.headerKey kind)
  | _, .quoted | _, .word => st.at (.headerPath kind)
  | .table, .closeBracket => st.at .afterValue
  | .element, .closeBracket => st.at .headerClose
  | _, .lineEnd => st.at .line
  | _, _ => st.at .skipped

def step (st : State) (token : Token) : Option State :=
  match st.place, token with
  | .line, .space | .line, .lineEnd | .line, .comment => st.at .line
  | .line, .openBracket => st.at .header
  | .line, .equals => st.at .value
  | .line, .dot => st.at .dot
  | .line, .quoted | .line, .word => st.at .path
  | .header, .openBracket => st.at (.headerKey .element)
  | .header, token => headerKey .table st token
  | .headerKey kind, token => headerKey kind st token
  | .headerPath kind, .space => st.at (.headerPath kind)
  | .headerPath kind, .dot => st.at (.headerKey kind)
  | .headerPath .table, .closeBracket => st.at .afterValue
  | .headerPath .element, .closeBracket => st.at .headerClose
  | .headerClose, .closeBracket => st.at .afterValue
  | .skipped, .lineEnd => st.at .line
  | .skipped, _ => st.at .skipped
  | .field, .space | .field, .lineEnd | .field, .comment => st.at .field
  | .field, .closeBrace => st.leave
  | .field, .equals => st.at .value
  | .field, .dot => st.at .dot
  | .field, .quoted | .field, .word => st.at .path
  | .dot, .space | .dot, .dot => st.at .dot
  | .dot, .quoted | .dot, .word => st.at .path
  | .dot, token => path st token
  | .path, .space => st.at .path
  | .path, token => path st token
  | .equals, .space | .equals, .lineEnd | .equals, .comment => st.at .equals
  | .equals, .equals => st.at .value
  | .value, .space => st.at .value
  | .value, .lineEnd | .value, .comment =>
    if st.nests.isEmpty then afterValue st token else st.at .value
  | .value, token => startValue st token
  | .word, .space | .word, .word | .word, .dot => st.at .word
  | .word, token => afterValue st token
  | .item, .space | .item, .lineEnd | .item, .comment => st.at .item
  | .item, .closeBracket => st.leave
  | .item, token => startValue st token
  | .afterValue, token => afterValue st token
  | _, _ => none

def mayEnd (st : State) : Bool :=
  st.nests.isEmpty &&
    match st.place with
    | .line | .header | .headerKey _ | .skipped | .value | .word | .afterValue => true
    | _ => false

def isSound (s : Text) : Bool :=
  match tokens? (s.length + 1) s with
  | none => false
  | some tokens =>
    match tokens.foldlM step ⟨.line, []⟩ with
    | none => false
    | some st => mayEnd st

end WorkspaceRelease.Toml.Outline

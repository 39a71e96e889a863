import WorkspaceRelease.Toml.Node.Render
import WorkspaceRelease.Toml.Value

/-!
A document is a sequence of statements, headers and assignments, each with the trivia before it,
and trivia at its end.
-/

namespace WorkspaceRelease.Toml

inductive Statement where
  | header (kind : HeaderKind) (path : List Key) (pad : Padding)
  | assignment (a : Assignment)
  deriving Repr

def Assignment.render (a : Assignment) : Text :=
  Key.renderPath Margin.tableKey a.path ++ '=' :: a.value.render Margin.value ++ ['\n']

def HeaderKind.brackets : HeaderKind → Text × Text
  | .table => (['['], [']'])
  | .element => (['[', '['], [']', ']'])

def Statement.render : Statement → Text
  | .header kind path pad =>
    pad.around Margin.none (kind.brackets.1 ++ Key.renderPath Margin.none path ++ kind.brackets.2) ++ ['\n']
  | .assignment a => a.render

/-- The rest of a line from its blank space on: that space and a comment, and the text behind the
line. -/
def readLineTail (s : Text) : Except Fault (Text × Text) :=
  match lineTail? s with
  | some r => .ok r
  | none => .error .malformed

def readHeader (before : Text) (kind : HeaderKind) (s : Text) : Except Fault (Statement × Text) := do
  let (segments, s) ← Key.readPath s
  if kind.brackets.2.isPrefixOf s then
    let (after, s) ← readLineTail (s.drop kind.brackets.2.length)
    .ok (.header kind (Key.ofSegments [] [] segments) ⟨some before, some after⟩, s)
  else .error .malformed

def readAssignment (before : Text) (s : Text) : Except Fault (Statement × Text) := do
  let (segments, s) ← Key.readPath s
  match s with
  | '=' :: s => do
    let (valueBefore, s) := spaces s
    let (n, s) ← readValue nestingLimit s
    let (valueAfter, s) ← readLineTail s
    let n := n.withPad ⟨some valueBefore, some valueAfter⟩
    .ok (.assignment ⟨Key.ofSegments before [] segments, n⟩, s)
  | _ => .error .malformed

/-- A statement with the trivia that was read before it. -/
def readStatement (before : Text) : Text → Except Fault (Statement × Text)
  | '[' :: '[' :: s => readHeader before .element s
  | '[' :: s => readHeader before .table s
  | s => readAssignment before s

/-- The statements up to the first fault, or all of them with the trivia after the last one. -/
def readStatements : Nat → Text → List Statement × Except Fault Text
  | 0, _ => ([], .error .malformed)
  | fuel + 1, s =>
    match trivia false s with
    | (trailing, []) => ([], .ok trailing)
    | (before, s) =>
      match readStatement before s with
      | .error fault => ([], .error fault)
      | .ok (statement, s) =>
        let (statements, ending) := readStatements fuel s
        (statement :: statements, ending)

/-- The assignments before the first header, and the sections that the headers open. -/
def sections : List Statement → List Assignment × List Section
  | [] => ([], [])
  | .assignment a :: ss =>
    let (body, rest) := sections ss
    (a :: body, rest)
  | .header kind path pad :: ss =>
    let (body, rest) := sections ss
    ([], ⟨kind, path, pad, body⟩ :: rest)

end WorkspaceRelease.Toml

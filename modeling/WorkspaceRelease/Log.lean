import WorkspaceRelease.Pattern

/-!
Log records and the filter that decides which of them are shown. A filter is a list of directives;
the one that names the longest part of a record's source decides.
-/

namespace WorkspaceRelease

inductive Level where
  | off
  | error
  | warn
  | info
  | debug
  | trace
  deriving DecidableEq, Repr

namespace Level

def all : List Level := [off, error, warn, info, debug, trace]

/-- How much a level shows. -/
def rank : Level → Nat
  | off => 0
  | error => 1
  | warn => 2
  | info => 3
  | debug => 4
  | trace => 5

def name : Level → Text
  | off => "OFF".toList
  | error => "ERROR".toList
  | warn => "WARN".toList
  | info => "INFO".toList
  | debug => "DEBUG".toList
  | trace => "TRACE".toList

/-- The level of a name in letters of either case. -/
def ofName? (t : Text) : Option Level := all.find? fun l => l.name = t.map Char.toUpper

end Level

/-- The part of the program that a record comes from. -/
inductive LogSource where
  | config
  | workspace
  | package
  | dispatch
  | release
  deriving DecidableEq, Repr

def LogSource.name : LogSource → Text
  | .config => "ena_release::config".toList
  | .workspace => "ena_release::cargo::workspace".toList
  | .package => "ena_release::cargo::package".toList
  | .dispatch => "ena_release::dispatch".toList
  | .release => "ena_release::command::release".toList

structure LogRecord where
  level : Level
  source : LogSource
  text : Text
  deriving DecidableEq, Repr

/-- A record as it is shown: the level takes five columns, and further lines of the text are
indented. -/
def LogRecord.line (r : LogRecord) : Text :=
  let level := r.level.name
  let text := r.text.flatMap fun c => if c = '\n' then "\n    ".toList else [c]
  '[' :: level ++ List.replicate (5 - level.length) ' ' ++ ' ' :: r.source.name ++ "] ".toList ++
    text ++ ['\n']

/-- The records of the sources that start with a name, or of all, up to a level. -/
structure LogDirective where
  source : Option Text
  level : Level
  deriving DecidableEq, Repr

/-- The directives with the longest names last, and what has to occur in the text of a record. -/
structure LogFilter where
  directives : List LogDirective
  pattern : Option Pattern.Expression
  deriving DecidableEq, Repr

namespace LogFilter

/-- A level, a source with a level, or a source of which all is shown. What describes none of them
comes back as the part that is at fault. -/
def directive (t : Text) : Except Text LogDirective :=
  match Text.splitOn '=' t with
  | [word] =>
    match Level.ofName? word with
    | some level => .ok ⟨none, level⟩
    | none => .ok ⟨some word, .trace⟩
  | [source, name] =>
    match Text.trim name, Level.ofName? (Text.trim name) with
    | [], _ => .ok ⟨some source, .trace⟩
    | _, some level => .ok ⟨some source, level⟩
    | bad, none => .error bad
  | _ => .error t

/-- A later directive for the same source takes the place of the earlier one. -/
def add (ds : List LogDirective) (d : LogDirective) : List LogDirective :=
  if ds.any fun e => e.source = d.source then ds.map fun e => if e.source = d.source then d else e
  else ds ++ [d]

def reach (d : LogDirective) : Nat := (d.source.map Text.byteSize).getD 0

/-- Puts a directive behind those that reach as far as it does. -/
def insertByReach (d : LogDirective) : List LogDirective → List LogDirective
  | [] => [d]
  | e :: es => if reach d < reach e then d :: e :: es else e :: insertByReach d es

def ofDirectives (ds : List LogDirective) (pattern : Option Pattern.Expression) : LogFilter :=
  match ds.foldl add [] with
  | [] => ⟨[⟨none, .error⟩], pattern⟩
  | ds => ⟨ds.foldl (fun sorted d => insertByReach d sorted) [], pattern⟩

def warning (why : Text) : Text := "warning: invalid ".toList ++ why ++ ", ignoring it\n".toList

def complaint (spec why : Text) : Text :=
  warning ("logging spec '".toList ++ spec ++ ['\''] ++ why)

/-- The pattern behind the slash of a specification, or a complaint about it. -/
def readPattern (t : Text) : Except Text Pattern.Expression :=
  (Pattern.ofText t).mapError fun e => warning ("regex filter - ".toList ++ e.display t)

/-- The complaint of a reading that failed. -/
def complaint? {α : Type} : Except Text α → Option Text
  | .ok _ => none
  | .error t => some t

/-- The filter that a specification describes, and complaints about the parts that describe none. -/
def ofSpec (spec : Text) : LogFilter × List Text :=
  match Text.splitOn '/' spec with
  | parts :: patterns =>
    if 1 < patterns.length then
      (ofDirectives [] none, [complaint spec " (too many '/'s)".toList])
    else
      let parts := ((Text.splitOn ',' parts).map Text.trim).filter fun part => !part.isEmpty
      let directives := parts.map fun part => (directive part).mapError (complaint · [])
      let patterns := patterns.map readPattern
      (ofDirectives (directives.filterMap Except.toOption) (patterns.findSome? Except.toOption),
        directives.filterMap complaint? ++ patterns.filterMap complaint?)
  | [] => (ofDirectives [] none, [])

def admits (f : LogFilter) (r : LogRecord) : Bool :=
  let matching := f.directives.reverse.find? fun d =>
    match d.source with
    | some name => name.isPrefixOf r.source.name
    | none => true
  match matching with
  | some d => r.level.rank ≤ d.level.rank && f.pattern.all (·.occursIn r.text)
  | none => false

end LogFilter

end WorkspaceRelease

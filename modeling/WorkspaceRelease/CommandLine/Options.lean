import WorkspaceRelease.Config
import WorkspaceRelease.Text.Visible

/-!
The command line. Words are read from left to right; an option that waits for its value takes the
next word, unless that is an option itself, and each option may be given once.
-/

namespace WorkspaceRelease.CommandLine

inductive Flag where
  | dry
  | setVersion
  | tag
  | publish
  | keepGoing
  | verbose
  deriving DecidableEq, Repr

inductive ValueOption where
  | family
  | workspace
  deriving DecidableEq, Repr

inductive Question where
  | help
  | version
  deriving DecidableEq, Repr

inductive Switch where
  | flag (f : Flag)
  | value (o : ValueOption)
  | question (q : Question)
  deriving DecidableEq, Repr

def Flag.name : Flag → Text
  | .dry => "--dry".toList
  | .setVersion => "--set-version".toList
  | .tag => "--tag".toList
  | .publish => "--publish".toList
  | .keepGoing => "--keep-going".toList
  | .verbose => "--verbose".toList

def ValueOption.name : ValueOption → Text
  | .family => "--prefix".toList
  | .workspace => "--workspace".toList

/-- An option as messages show it, with what its value stands for. -/
def ValueOption.display : ValueOption → Text
  | .family => "--prefix <PREFIX>".toList
  | .workspace => "--workspace <DIR>".toList

def Question.name : Question → Text
  | .help => "--help".toList
  | .version => "--version".toList

def Switch.name : Switch → Text
  | .flag f => f.name
  | .value o => o.name
  | .question q => q.name

def switches : List Switch :=
  [.flag .dry, .flag .setVersion, .flag .tag, .flag .publish, .flag .keepGoing, .flag .verbose,
   .value .family, .value .workspace, .question .help, .question .version]

def switch? (name : Text) : Option Switch := switches.find? fun s => s.name = name

/-- The switches that have a letter of their own; none of them takes a value. -/
def letter? (c : Char) : Option (Flag ⊕ Question) :=
  if c = 'v' then some (.inl .verbose)
  else if c = 'h' then some (.inr .help)
  else if c = 'V' then some (.inr .version)
  else none

/-- Why a command line is not run: it asks a question instead, or it is malformed. -/
inductive Refusal where
  | question (q : Question)
  | unknownArgument (word : Text)
  | valueMissing (o : ValueOption)
  | unexpectedValue (name value : Text)
  | repeated (display : Text)
  deriving DecidableEq, Repr

/-- Words of the command line appear as a terminal shows them. -/
def Refusal.complaint : Refusal → Text
  | .question _ => []
  | .unknownArgument word => "error: unexpected argument '".toList ++ word.visible ++ "' found".toList
  | .valueMissing o =>
    "error: a value is required for '".toList ++ o.display ++ "' but none was supplied".toList
  | .unexpectedValue name value =>
    "error: unexpected value '".toList ++ value.visible ++ "' for '".toList ++ name ++
      "' found; no more were expected".toList
  | .repeated display =>
    "error: the argument '".toList ++ display ++ "' cannot be used multiple times".toList

structure Given where
  flags : List Flag := []
  family : Option Text := none
  workspace : Option Text := none
  deriving DecidableEq, Repr

/-- An option that waits for its value, or has one that is not yet accepted. -/
structure Pending where
  option : ValueOption
  value : Option Text
  deriving DecidableEq, Repr

namespace Given

def raise (g : Given) (f : Flag) : Except Refusal Given :=
  if g.flags.contains f then .error (.repeated f.name) else .ok { g with flags := f :: g.flags }

/-- Accepts the value of an option; a workspace has a name. -/
def store (g : Given) (o : ValueOption) (value : Text) : Except Refusal Given :=
  match o with
  | .family =>
    if g.family.isSome then .error (.repeated o.display) else .ok { g with family := some value }
  | .workspace =>
    if g.workspace.isSome then .error (.repeated o.display)
    else if value.isEmpty then .error (.valueMissing o)
    else .ok { g with workspace := some value }

def settle (g : Given) : Option Pending → Except Refusal Given
  | none => .ok g
  | some ⟨o, none⟩ => .error (.valueMissing o)
  | some ⟨o, some value⟩ => g.store o value

def raiseLetters (g : Given) : Text → Except Refusal Given
  | [] => .ok g
  | c :: s =>
    match letter? c with
    | some (.inl f) => do raiseLetters (← g.raise f) s
    | some (.inr q) => .error (.question q)
    | none => .error (.unknownArgument ['-', c])

end Given

inductive Word where
  /-- All words after it are no options. -/
  | dashes
  | long (name : Text) (value : Option Text)
  | letters (cs : Text)
  | plain (t : Text)
  deriving DecidableEq, Repr

def Word.ofText (t : Text) : Word :=
  match t with
  | ['-', '-'] => .dashes
  | '-' :: '-' :: _ =>
    match Text.cut? '=' t with
    | some (name, value) => .long name (some value)
    | none => .long t none
  | '-' :: c :: s => .letters (c :: s)
  | _ => .plain t

def readWords (g : Given) (pending : Option Pending) : List Text → Except Refusal Given
  | [] => g.settle pending
  | t :: ts =>
    match Word.ofText t with
    | .dashes =>
      match ts with
      | [] => g.settle pending
      | word :: _ => .error (.unknownArgument word)
    | .plain word =>
      match pending with
      | some ⟨o, none⟩ => readWords g (some ⟨o, some word⟩) ts
      | _ => .error (.unknownArgument word)
    | .letters [] => .error (.unknownArgument t)
    | .letters (c :: s) =>
      match letter? c with
      | none => .error (.unknownArgument ['-', c])
      | some _ => do
        let g ← g.settle pending
        readWords (← g.raiseLetters (c :: s)) none ts
    | .long name value =>
      match switch? name, value with
      | none, _ => .error (.unknownArgument name)
      | some (.value o), some value => do
        let g ← g.settle pending
        readWords (← g.store o value) none ts
      | some (.value o), none => do
        readWords (← g.settle pending) (some ⟨o, none⟩) ts
      | some s, some value => .error (.unexpectedValue s.name value)
      | some (.flag f), none => do
        let g ← g.settle pending
        readWords (← g.raise f) none ts
      | some (.question q), none => do
        let _ ← g.settle pending
        .error (.question q)

structure Options where
  config : Config
  verbose : Bool
  deriving DecidableEq, Repr

def Given.options (g : Given) : Options where
  config := {
    dryRun := g.flags.contains .dry
    setVersion := g.flags.contains .setVersion
    tag := g.flags.contains .tag
    publish := g.flags.contains .publish
    keepGoing := g.flags.contains .keepGoing
    family := g.family.getD defaultFamily
    workspace := g.workspace.getD defaultWorkspace }
  verbose := g.flags.contains .verbose

def Options.ofWords (words : List Text) : Except Refusal Options :=
  (readWords {} none words).map Given.options

end WorkspaceRelease.CommandLine

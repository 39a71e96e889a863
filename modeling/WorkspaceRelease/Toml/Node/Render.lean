import WorkspaceRelease.Toml.Node

/-!
The text of a value. Each token is written between the padding it keeps, and between the margin of
its place where it keeps none.
-/

namespace WorkspaceRelease.Toml

namespace Margin

def none : Margin := ⟨[], []⟩

/-- Around a value that is followed by another or by the end of its line. -/
def value : Margin := ⟨[' '], []⟩

/-- Around the last value between braces. -/
def lastValue : Margin := ⟨[' '], [' ']⟩

def tableKey : Margin := ⟨[], [' ']⟩

def inlineKey : Margin := ⟨[' '], [' ']⟩

end Margin

def Node.isInlineDotted : Node → Bool
  | .table .inlineDotted _ => true
  | _ => false

mutual

def Node.render (margin : Margin) : Node → Text
  | .scalar _ written pad => pad.around margin written
  | .array items trailingComma trailing pad =>
    pad.around margin ('[' :: Text.joinWith [','] (renderItems Margin.none items) ++
      (if trailingComma then [','] else []) ++ trailing ++ [']'])
  | .table form es =>
    match form with
    | .inline preamble pad =>
      pad.around margin ('\x7b' :: preamble ++ Text.joinWith [','] (renderFields [] true es) ++ ['\x7d'])
    | _ => []
  | .tables _ => []

def renderItems (margin : Margin) : List Node → List Text
  | [] => []
  | n :: ns => n.render margin :: renderItems Margin.value ns

/-- The fields of a table in braces, with the keys of the dotted tables they stand in. -/
def renderFields (path : List Key) (last : Bool) : List (Key × Node) → List Text
  | [] => []
  | (k, n) :: es =>
    (if n.isInlineDotted then n.renderDottedFields (path ++ [k]) (last && es.isEmpty)
      else [Key.renderPath Margin.inlineKey (path ++ [k]) ++ '=' ::
        n.render (if last && es.isEmpty then Margin.lastValue else Margin.value)]) ++
      renderFields path last es

def Node.renderDottedFields (path : List Key) (last : Bool) : Node → List Text
  | .table _ es => renderFields path last es
  | _ => []

end

end WorkspaceRelease.Toml

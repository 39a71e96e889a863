import WorkspaceRelease.Toml.Document

/-!
The parts of documents, with the text that stands around them. What a text is read as is put together from these
wherever it has to be written down.
-/

namespace WorkspaceRelease.Toml

def spacedKey (name : String) (before after : Text) : Key :=
  ⟨name.toList, name.toList, ⟨some before, some after⟩, [], []⟩

def bareKey (name : String) (after : Text) : Key := spacedKey name [] after

def spacedNode (data : Scalar) (written before after : Text) : Node :=
  .scalar data written ⟨some before, some after⟩

def quotedNode (t before after : Text) : Node := spacedNode (.string t) ('"' :: t ++ ['"']) before after

def literalNode (t before after : Text) : Node := spacedNode (.string t) ('\'' :: t ++ ['\'']) before after

def trueNode (after : Text) : Node := spacedNode (.boolean true) "true".toList [' '] after

/-- A table between braces, behind the space of its assignment. -/
def bracedNode (after : Text) (es : List Entry) : Node := .table (.inline [] ⟨some [' '], some after⟩) es

/-- A requirement that says of its version that the workspace has it. -/
def inheritedNode : Node := bracedNode [] [(spacedKey "workspace" [' '] [' '], trueNode [' '])]

/-- A table that a header opens, on a line of its own. -/
def bareHeader (place : Nat) (name : String) (es : List Entry) : Entry :=
  (bareKey name [], .table (.headed place ⟨some [], some []⟩) es)

/-- A table that a dotted key makes on the way to its values. -/
def dottedEntry (name : String) (es : List Entry) : Entry := (Key.ofName name.toList, .table .dotted es)

/-- A table that only the headers below it make. -/
def implicitEntry (name : String) (es : List Entry) : Entry := (Key.ofName name.toList, .table .implicit es)

/-- A line of a table: a key and the string that it has. -/
def lineEntry (name : String) (t : Text) : Entry := (bareKey name [' '], quotedNode t [' '] [])

end WorkspaceRelease.Toml

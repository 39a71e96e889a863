import WorkspaceRelease.Toml.Document
import WorkspaceRelease.Toml.StringForm

/-!
Stamping a version into the tree of a manifest: the version of its package, and that of every
dependency whose name starts with the family's lead. Each entry that the lead selects is stamped,
inherited from the workspace, or in a form that has no version; the count and the records follow
from that alone.
-/

namespace WorkspaceRelease.Stamp

open Toml

def versionKey : Text := "version".toList

def dependencySections : List Text :=
  ["dependencies".toList, "dev-dependencies".toList, "build-dependencies".toList]

def versionString (version : Text) (pad : Padding) : Node :=
  .scalar (.string version) (encodeString version) pad

/-- A version that is there keeps its place and padding; a new one comes last. -/
def setVersion (version : Text) (es : List Entry) : List Entry :=
  match Entries.find? versionKey es with
  | some old => Entries.replace versionKey (versionString version old.pad) es
  | none => es ++ [(Key.ofName versionKey, versionString version {})]

/-- A version appended between braces takes over the text between the last value and the brace. -/
def appendVersion (version : Text) (es : List Entry) : List Entry :=
  match es.getLast? with
  | none => [(Key.ofName versionKey, versionString version {})]
  | some (k, last) =>
    es.dropLast ++
      [(k, last.withPad { last.pad with after := some [] }),
       (Key.ofName versionKey, versionString version { after := last.pad.after })]

def setInlineVersion (version : Text) (es : List Entry) : List Entry :=
  match Entries.find? versionKey es with
  | some old => Entries.replace versionKey (versionString version old.pad) es
  | none => appendVersion version es

def setTableVersion (version : Text) (form : TableForm) (es : List Entry) : List Entry :=
  match form with
  | .inline _ _ | .inlineDotted => setInlineVersion version es
  | _ => setVersion version es

def inherits (es : List Entry) : Bool :=
  (Entries.find? "workspace".toList es).bind Node.boolean? = some true

inductive Outcome where
  | stamped
  | inherited
  | unsupported
  deriving DecidableEq, Repr

def outcome : Node → Outcome
  | .scalar (.string _) _ _ => .stamped
  | .table _ es => if inherits es then .inherited else .stamped
  | _ => .unsupported

def stampRequirement (version : Text) : Node → Node
  | .scalar (.string _) _ pad => versionString version pad
  | .table form es =>
    .table form (if inherits es then es else setTableVersion version form es)
  | n => n

def stampTable (lead version : Text) (es : List Entry) : List Entry :=
  es.map fun (k, n) => (k, if lead.isPrefixOf k.name then stampRequirement version n else n)

def stampSections (lead version : Text) (es : List Entry) : List Entry :=
  es.map fun (k, n) =>
    (k, if dependencySections.contains k.name then n.mapEntries (stampTable lead version) else n)

def stampTargets (lead version : Text) (es : List Entry) : List Entry :=
  es.map fun (k, n) =>
    (k, if k.name = "target".toList then
      n.mapEntries (List.map fun (k, t) => (k, t.mapEntries (stampSections lead version)))
    else n)

/-- The dependency sections among some entries, in the order in which they are stamped. -/
def sectionTables (es : List Entry) : List (List Entry) :=
  dependencySections.filterMap fun name => (Entries.find? name es).bind Node.entries?

/-- All dependency sections of a manifest: its own, then those of its targets. -/
def coveredTables (es : List Entry) : List (List Entry) :=
  sectionTables es ++
    (((Entries.find? "target".toList es).bind Node.entries?).getD []).flatMap fun (_, t) =>
      (t.entries?.map sectionTables).getD []

/-- The entries that the lead selects, with what happens to each. -/
def familyOutcomes (lead : Text) (es : List Entry) : List (Text × Outcome) :=
  (coveredTables es).flatten.filterMap fun (k, n) =>
    if lead.isPrefixOf k.name then some (k.name, outcome n) else none

def stampFamily (lead version : Text) (es : List Entry) : List Entry :=
  stampTargets lead version (stampSections lead version es)

def familyCount (lead : Text) (es : List Entry) : Nat :=
  (familyOutcomes lead es).countP fun o => o.2 = .stamped

def stampPackage? (version : Text) (es : List Entry) : Option (List Entry) := do
  match ← Entries.find? "package".toList es with
  | .table form inner =>
    some (Entries.replace "package".toList (.table form (setVersion version inner)) es)
  | _ => none

end WorkspaceRelease.Stamp

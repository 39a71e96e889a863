import Mathlib.Data.List.Sort
import WorkspaceRelease.Proofs.Toml.Agreement

/-!
A printed document as a list of pieces. The piece that prints a scalar says where the scalar stands in the tree,
and trivia says within which brackets or braces it stands.
-/

namespace WorkspaceRelease.Toml

inductive Piece where
  | trivia (within : List Step) (t : Text)
  /-- A key or a punctuation mark. -/
  | token (t : Text)
  | value (loc : List Step) (t : Text)
  deriving DecidableEq, Repr

def Piece.text : Piece → Text
  | .trivia _ t => t
  | .token t => t
  | .value _ t => t

def piecesText (ps : List Piece) : Text := ps.flatMap Piece.text

@[simp] theorem piecesText_nil : piecesText [] = [] := rfl

@[simp] theorem piecesText_cons (p : Piece) (ps : List Piece) : piecesText (p :: ps) = p.text ++ piecesText ps :=
  List.flatMap_cons

@[simp] theorem piecesText_append (ps qs : List Piece) : piecesText (ps ++ qs) = piecesText ps ++ piecesText qs :=
  List.flatMap_append

theorem piecesText_flatMap {α : Type} (f : α → List Piece) (as : List α) :
    piecesText (as.flatMap f) = as.flatMap fun a => piecesText (f a) :=
  List.flatMap_assoc

def joinPieces : List (List Piece) → List Piece
  | [] => []
  | [ps] => ps
  | ps :: pss => ps ++ .token [','] :: joinPieces pss

theorem flatMap_joinPieces {α : Type} {f : List Piece → List α} (hnil : f [] = [])
    (happend : ∀ ps qs, f (ps ++ qs) = f ps ++ f qs) (hcomma : f [.token [',']] = []) (pss : List (List Piece)) :
    f (joinPieces pss) = pss.flatMap f := by
  induction pss with
  | nil => exact hnil
  | cons ps pss ih =>
    cases pss with
    | nil => rw [List.flatMap_singleton]; rfl
    | cons qs pss =>
      have hjoin : joinPieces (ps :: qs :: pss) = ps ++ ([.token [',']] ++ joinPieces (qs :: pss)) := rfl
      rw [hjoin, happend, happend, hcomma, ih, List.nil_append]
      rfl

def Padding.pieces (pad : Padding) (margin : Margin) (within : List Step) (ps : List Piece) : List Piece :=
  .trivia within (pad.before.getD margin.before) :: ps ++ [.trivia within (pad.after.getD margin.after)]

namespace Key

def dottedPieces (within : List Step) : List Key → List Piece
  | [] => []
  | [k] => [.token k.written]
  | k :: l :: ks =>
    .token k.written :: .trivia within k.afterDotted :: .token ['.'] :: .trivia within l.beforeDotted ::
      dottedPieces within (l :: ks)

def pathPieces (margin : Margin) (within : List Step) (path : List Key) : List Piece :=
  match path.getLast? with
  | none => []
  | some last => last.ending.pieces margin within (dottedPieces within path)

end Key

mutual

def Node.pieces (within loc : List Step) (margin : Margin) : Node → List Piece
  | .scalar _ written pad => pad.pieces margin within [.value loc written]
  | .array items trailingComma trailing pad =>
    pad.pieces margin within (.token ['['] :: joinPieces (itemPieces loc 0 Margin.none items) ++
      (if trailingComma then [.token [',']] else []) ++ [.trivia loc trailing, .token [']']])
  | .table form es =>
    match form with
    | .inline preamble pad =>
      pad.pieces margin within (.token ['\x7b'] :: .trivia loc preamble ::
        joinPieces (fieldPieces loc loc [] true es) ++ [.token ['\x7d']])
    | _ => []
  | .tables _ => []

def itemPieces (loc : List Step) (i : Nat) (margin : Margin) : List Node → List (List Piece)
  | [] => []
  | n :: ns => n.pieces loc (loc ++ [.item i]) margin :: itemPieces loc (i + 1) Margin.value ns

def fieldPieces (within loc : List Step) (path : List Key) (last : Bool) : List (Key × Node) → List (List Piece)
  | [] => []
  | (k, n) :: es =>
    (if n.isInlineDotted then
      n.dottedFieldPieces within (loc ++ [.key k.name]) (path ++ [k]) (last && es.isEmpty)
    else [Key.pathPieces Margin.inlineKey within (path ++ [k]) ++ .token ['='] ::
      n.pieces within (loc ++ [.key k.name]) (if last && es.isEmpty then Margin.lastValue else Margin.value)]) ++
      fieldPieces within loc path last es

def Node.dottedFieldPieces (within loc : List Step) (path : List Key) (last : Bool) : Node → List (List Piece)
  | .table _ es => fieldPieces within loc path last es
  | _ => []

end

/-- An assignment with where its value stands in the tree. -/
structure Located where
  loc : List Step
  assignment : Assignment
  deriving Repr

def Located.pieces (a : Located) : List Piece :=
  Key.pathPieces Margin.tableKey [] a.assignment.path ++
    .token ['='] :: a.assignment.value.pieces [] a.loc Margin.value ++ [.token ['\n']]

mutual

def locatedAssignments (loc : List Step) (path : List Key) : List (Key × Node) → List Located
  | [] => []
  | (k, n) :: es =>
    n.locatedAssignments (loc ++ [.key k.name]) (path ++ [k]) ++ locatedAssignments loc path es

def Node.locatedAssignments (loc : List Step) (path : List Key) : Node → List Located
  | .scalar d w p => [⟨loc, path, .scalar d w p⟩]
  | .array items comma trailing p => [⟨loc, path, .array items comma trailing p⟩]
  | .table form es =>
    match form with
    | .dotted => Toml.locatedAssignments loc path es
    | .inline preamble p => [⟨loc, path, .table (.inline preamble p) es⟩]
    | _ => []
  | .tables _ => []

end

structure LocatedSection where
  place : Option Nat
  kind : HeaderKind
  path : List Key
  pad : Padding
  body : List Located
  deriving Repr

namespace LocatedSection

def placed (s : LocatedSection) : PlacedSection := ⟨s.place, s.kind, s.path, s.pad, s.body.map Located.assignment⟩

def pieces (first : Bool) (s : LocatedSection) : List Piece :=
  Padding.pieces ⟨some (s.pad.before.getD (if first then [] else ['\n'])), some (s.pad.after.getD [])⟩ Margin.none []
      (.token s.kind.brackets.1 :: Key.pathPieces Margin.none [] s.path ++ [.token s.kind.brackets.2]) ++
    .token ['\n'] :: s.body.flatMap Located.pieces

end LocatedSection

mutual

def locatedSections (loc : List Step) (path : List Key) : List (Key × Node) → List LocatedSection
  | [] => []
  | (k, n) :: es =>
    n.locatedSections .table (loc ++ [.key k.name]) (path ++ [k]) ++ locatedSections loc path es

def Node.locatedSections (kind : HeaderKind) (loc : List Step) (path : List Key) : Node → List LocatedSection
  | .scalar _ _ _ => []
  | .array _ _ _ _ => []
  | .table form es =>
    match form with
    | .headed place pad => ⟨some place, kind, path, pad, locatedAssignments loc [] es⟩ :: Toml.locatedSections loc path es
    | .implicit =>
      let body := locatedAssignments loc [] es
      if body.isEmpty then Toml.locatedSections loc path es
      else ⟨none, kind, path, {}, body⟩ :: Toml.locatedSections loc path es
    | .dotted => Toml.locatedSections loc path es
    | _ => []
  | .tables ts => locatedElements loc 0 path ts

def locatedElements (loc : List Step) (i : Nat) (path : List Key) : List Node → List LocatedSection
  | [] => []
  | t :: ts => t.locatedSections .element (loc ++ [.item i]) path ++ locatedElements loc (i + 1) path ts

end

def settleLocated (place : Nat) : List LocatedSection → List (Nat × LocatedSection)
  | [] => []
  | s :: ss => (s.place.getD place, s) :: settleLocated (s.place.getD place) ss

namespace Document

/-- The sections in the order in which they are printed. -/
def locatedSections (d : Document) : List LocatedSection :=
  ((settleLocated 0 (Toml.locatedSections [] [] d.entries)).insertionSort fun s t => s.1 ≤ t.1).map (·.2)

def sectionPieces (first : Bool) : List LocatedSection → List Piece
  | [] => []
  | s :: ss => s.pieces first ++ ss.flatMap (LocatedSection.pieces false)

def pieces (d : Document) : List Piece :=
  let body := locatedAssignments [] [] d.entries
  body.flatMap Located.pieces ++ sectionPieces body.isEmpty d.locatedSections ++ [.trivia [] d.trailing]

end Document

section Text

theorem piecesText_joinPieces (pss : List (List Piece)) :
    piecesText (joinPieces pss) = Text.joinWith [','] (pss.map piecesText) := by
  induction pss with
  | nil => rfl
  | cons ps pss ih =>
    cases pss with
    | nil => rfl
    | cons qs pss => simp [joinPieces, Text.joinWith, Piece.text] at ih ⊢; exact ih

@[simp] theorem piecesText_padding (pad : Padding) (margin : Margin) (within : List Step) (ps : List Piece) :
    piecesText (pad.pieces margin within ps) = pad.around margin (piecesText ps) := by
  simp [Padding.pieces, Padding.around, Piece.text]

theorem piecesText_dottedPieces (within : List Step) (path : List Key) :
    piecesText (Key.dottedPieces within path) = Key.renderDotted path := by
  induction path with
  | nil => rfl
  | cons k ks ih =>
    cases ks with
    | nil => simp [Key.dottedPieces, Key.renderDotted, Piece.text]
    | cons l ks => simp [Key.dottedPieces, Key.renderDotted, Piece.text, ih]

@[simp] theorem piecesText_pathPieces (margin : Margin) (within : List Step) (path : List Key) :
    piecesText (Key.pathPieces margin within path) = Key.renderPath margin path := by
  unfold Key.pathPieces Key.renderPath
  cases path.getLast? with
  | none => rfl
  | some last => simp [piecesText_dottedPieces]

mutual

theorem piecesText_node (within loc : List Step) (margin : Margin) (n : Node) :
    piecesText (n.pieces within loc margin) = n.render margin := by
  cases n with
  | scalar d w p => simp [Node.pieces, Node.render, Piece.text]
  | array items comma trailing p =>
    have hitems := map_itemPieces loc 0 Margin.none items
    cases comma <;> simp [Node.pieces, Node.render, Piece.text, piecesText_joinPieces, hitems]
  | table form es =>
    cases form with
    | inline preamble p =>
      have hfields := map_fieldPieces loc loc [] true es
      simp [Node.pieces, Node.render, Piece.text, piecesText_joinPieces, hfields]
    | inlineDotted | dotted | implicit | headed => rfl
  | tables ts => rfl

theorem map_itemPieces (loc : List Step) (i : Nat) (margin : Margin) (ns : List Node) :
    (itemPieces loc i margin ns).map piecesText = renderItems margin ns := by
  cases ns with
  | nil => rfl
  | cons n ns =>
    rw [itemPieces, renderItems, List.map_cons, piecesText_node, map_itemPieces]

theorem map_fieldPieces (within loc : List Step) (path : List Key) (last : Bool) (es : List Entry) :
    (fieldPieces within loc path last es).map piecesText = renderFields path last es := by
  match es with
  | [] => rfl
  | (k, n) :: es =>
    rw [fieldPieces, renderFields, List.map_append, map_fieldPieces within loc path last es]
    congr 1
    split
    · exact map_dottedFieldPieces within (loc ++ [.key k.name]) (path ++ [k]) (last && es.isEmpty) n
    · simp [piecesText_node, Piece.text]

theorem map_dottedFieldPieces (within loc : List Step) (path : List Key) (last : Bool) (n : Node) :
    (n.dottedFieldPieces within loc path last).map piecesText = n.renderDottedFields path last := by
  cases n with
  | table form es => exact map_fieldPieces within loc path last es
  | scalar | array | tables => rfl

end

theorem piecesText_located (a : Located) : piecesText a.pieces = a.assignment.render := by
  simp [Located.pieces, Assignment.render, piecesText_node, Piece.text]

mutual

theorem map_locatedAssignments (loc : List Step) (path : List Key) (es : List Entry) :
    (locatedAssignments loc path es).map Located.assignment = assignments path es := by
  match es with
  | [] => rfl
  | (k, n) :: es =>
    rw [locatedAssignments, assignments, List.map_append, map_locatedAssignments loc path es,
      n.map_locatedAssignments (loc ++ [Step.key k.name]) (path ++ [k])]

theorem Node.map_locatedAssignments (loc : List Step) (path : List Key) (n : Node) :
    (n.locatedAssignments loc path).map Located.assignment = n.assignments path := by
  cases n with
  | table form es =>
    cases form with
    | dotted => exact Toml.map_locatedAssignments loc path es
    | inline | inlineDotted | implicit | headed => rfl
  | scalar | array | tables => rfl

end

mutual

theorem map_locatedSections (loc : List Step) (path : List Key) (es : List Entry) :
    (locatedSections loc path es).map LocatedSection.placed = placedSections path es := by
  match es with
  | [] => rfl
  | (k, n) :: es =>
    rw [locatedSections, placedSections, List.map_append, map_locatedSections loc path es,
      n.map_locatedSections .table (loc ++ [Step.key k.name]) (path ++ [k])]

theorem Node.map_locatedSections (kind : HeaderKind) (loc : List Step) (path : List Key) (n : Node) :
    (n.locatedSections kind loc path).map LocatedSection.placed = n.placedSections kind path := by
  cases n with
  | table form es =>
    have hbody := map_locatedAssignments loc [] es
    have hsections := Toml.map_locatedSections loc path es
    cases form with
    | dotted => exact hsections
    | headed place pad =>
      simp only [Node.locatedSections, Node.placedSections, List.map_cons, hsections, LocatedSection.placed, hbody]
    | implicit =>
      have hempty : (locatedAssignments loc [] es).isEmpty = (assignments [] es).isEmpty := by
        rw [← hbody, List.isEmpty_map]
      simp only [Node.locatedSections, Node.placedSections, hempty]
      split
      · exact hsections
      · simp only [List.map_cons, hsections, LocatedSection.placed, hbody]
    | inline | inlineDotted => rfl
  | tables ts => exact map_locatedElements loc 0 path ts
  | scalar | array => rfl

theorem map_locatedElements (loc : List Step) (i : Nat) (path : List Key) (ts : List Node) :
    (locatedElements loc i path ts).map LocatedSection.placed = elementSections path ts := by
  match ts with
  | [] => rfl
  | t :: ts =>
    rw [locatedElements, elementSections, List.map_append, map_locatedElements loc (i + 1) path ts,
      t.map_locatedSections .element (loc ++ [Step.item i]) path]

end

theorem map_settleLocated (place : Nat) (ss : List LocatedSection) :
    (settleLocated place ss).map (fun s => (s.1, s.2.placed.content)) = settle place (ss.map LocatedSection.placed) := by
  induction ss generalizing place with
  | nil => rfl
  | cons s ss ih =>
    rw [settleLocated, List.map_cons, List.map_cons, ih]
    rfl

theorem sortByPlace_eq_insertionSort (ss : List (Nat × Section)) :
    sortByPlace ss = ss.insertionSort fun s t => s.1 ≤ t.1 := by
  have hinsert (s : Nat × Section) (ts : List (Nat × Section)) :
      insertByPlace s ts = ts.orderedInsert (fun s t => s.1 ≤ t.1) s := by
    induction ts with
    | nil => rfl
    | cons t ts ih => simp only [insertByPlace, List.orderedInsert, ih]
  induction ss with
  | nil => rfl
  | cons s ss ih => rw [List.insertionSort_cons, ← ih, ← hinsert]; rfl

namespace Document

theorem map_locatedSections (d : Document) : d.locatedSections.map (fun s => s.placed.content) =
    (sortByPlace (settle 0 (placedSections [] d.entries))).map (·.2) := by
  have hsort := List.map_insertionSort (r := fun s t : Nat × LocatedSection => s.1 ≤ t.1) (s := fun s t => s.1 ≤ t.1)
    (fun s : Nat × LocatedSection => (s.1, s.2.placed.content)) (settleLocated 0 (Toml.locatedSections [] [] d.entries))
    fun _ _ _ _ => Iff.rfl
  rw [sortByPlace_eq_insertionSort, ← Toml.map_locatedSections [] [] d.entries, ← map_settleLocated, ← hsort,
    locatedSections, List.map_map, List.map_map]
  rfl

theorem piecesText_section (first : Bool) (s : LocatedSection) :
    piecesText (s.pieces first) = (s.placed.content.statements first).flatMap Statement.render := by
  simp [LocatedSection.pieces, Section.statements, LocatedSection.placed, Statement.render, piecesText_flatMap,
    piecesText_located, List.flatMap_map, Piece.text]

theorem piecesText_pieces (d : Document) : piecesText d.pieces = d.render := by
  have hbody := map_locatedAssignments [] [] d.entries
  have hempty : (locatedAssignments [] [] d.entries).isEmpty = (assignments [] d.entries).isEmpty := by
    rw [← hbody, List.isEmpty_map]
  simp only [pieces, render, statements, piecesText_append, piecesText_flatMap, piecesText_located, hempty,
    ← map_locatedSections, List.flatMap_append]
  congr 1
  · congr 1
    · rw [← hbody, List.map_map, List.flatMap_map]
      rfl
    · cases d.locatedSections with
      | nil => rfl
      | cons s ss =>
        simp [sectionPieces, piecesText_section, piecesText_flatMap, List.flatMap_map, List.flatMap_assoc]
  · simp [Piece.text]

end Document

end Text

end WorkspaceRelease.Toml

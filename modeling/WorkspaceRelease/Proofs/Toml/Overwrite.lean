import WorkspaceRelease.Proofs.Toml.Distinct
import WorkspaceRelease.Proofs.Toml.Paths
import WorkspaceRelease.Proofs.Toml.Pieces
import WorkspaceRelease.Toml.StringForm

/-!
Some scalars of a tree become one string, with the padding that they have. In the text that is printed, the pieces
of these scalars change, and no other.
-/

namespace WorkspaceRelease.Toml

mutual

/-- The scalars that the paths hit become the string. -/
def Node.overwrite (hit : List Step → Bool) (s : Text) : Node → Node
  | .scalar data written pad => if hit [] then .scalar (.string s) (encodeString s) pad else .scalar data written pad
  | .array items comma trailing pad => .array (overwriteItems hit s 0 items) comma trailing pad
  | .table form es => .table form (overwriteEntries hit s es)
  | .tables ts => .tables (overwriteItems hit s 0 ts)

def overwriteItems (hit : List Step → Bool) (s : Text) (i : Nat) : List Node → List Node
  | [] => []
  | n :: ns => n.overwrite (fun path => hit (.item i :: path)) s :: overwriteItems hit s (i + 1) ns

def overwriteEntries (hit : List Step → Bool) (s : Text) : List (Key × Node) → List (Key × Node)
  | [] => []
  | (k, n) :: es => (k, n.overwrite (fun path => hit (.key k.name :: path)) s) :: overwriteEntries hit s es

end

def Document.overwrite (hit : List Step → Bool) (s : Text) (d : Document) : Document :=
  { d with entries := overwriteEntries hit s d.entries }

def Piece.overwrite (hit : List Step → Bool) (s : Text) : Piece → Piece
  | .value loc t => .value loc (if hit loc then encodeString s else t)
  | p => p

def Located.overwrite (hit : List Step → Bool) (s : Text) (a : Located) : Located :=
  ⟨a.loc, a.assignment.path, a.assignment.value.overwrite (fun path => hit (a.loc ++ path)) s⟩

def LocatedSection.overwrite (hit : List Step → Bool) (s : Text) (x : LocatedSection) : LocatedSection :=
  { x with body := x.body.map (Located.overwrite hit s) }

section Pieces

variable (hit : List Step → Bool) (s : Text)

theorem map_overwrite_joinPieces (pss : List (List Piece)) :
    (joinPieces pss).map (Piece.overwrite hit s) = joinPieces (pss.map (List.map (Piece.overwrite hit s))) := by
  induction pss with
  | nil => rfl
  | cons ps pss ih =>
    cases pss with
    | nil => rfl
    | cons qs pss => simp [joinPieces, Piece.overwrite] at ih ⊢; exact ih

theorem map_overwrite_padding (pad : Padding) (margin : Margin) (within : List Step) (ps : List Piece) :
    (pad.pieces margin within ps).map (Piece.overwrite hit s) =
      pad.pieces margin within (ps.map (Piece.overwrite hit s)) := by
  simp [Padding.pieces, Piece.overwrite]

theorem map_overwrite_dottedPieces (within : List Step) (path : List Key) :
    (Key.dottedPieces within path).map (Piece.overwrite hit s) = Key.dottedPieces within path := by
  induction path with
  | nil => rfl
  | cons k ks ih => cases ks <;> simp [Key.dottedPieces, Piece.overwrite, ih]

theorem map_overwrite_pathPieces (margin : Margin) (within : List Step) (path : List Key) :
    (Key.pathPieces margin within path).map (Piece.overwrite hit s) = Key.pathPieces margin within path := by
  unfold Key.pathPieces
  cases path.getLast? with
  | none => rfl
  | some last => rw [map_overwrite_padding, map_overwrite_dottedPieces]

theorem isInlineDotted_overwrite (n : Node) : (n.overwrite hit s).isInlineDotted = n.isInlineDotted := by
  cases n with
  | scalar => rw [Node.overwrite]; split <;> rfl
  | table form => cases form <;> rfl
  | array | tables => rfl

theorem isEmpty_overwriteEntries (es : List Entry) : (overwriteEntries hit s es).isEmpty = es.isEmpty := by
  cases es <;> rfl

mutual

theorem pieces_overwrite (within loc : List Step) (margin : Margin) (n : Node) :
    (n.overwrite (fun path => hit (loc ++ path)) s).pieces within loc margin =
      (n.pieces within loc margin).map (Piece.overwrite hit s) := by
  cases n with
  | scalar data written pad =>
    rw [Node.overwrite, List.append_nil, Node.pieces, map_overwrite_padding]
    cases h : hit loc <;> simp [Node.pieces, Piece.overwrite, h]
  | array items comma trailing pad =>
    have hitems := itemPieces_overwrite loc 0 Margin.none items
    rw [Node.overwrite, Node.pieces, Node.pieces, map_overwrite_padding, hitems]
    cases comma <;> simp [map_overwrite_joinPieces, Piece.overwrite]
  | table form es =>
    cases form with
    | inline preamble pad =>
      have hfields := fieldPieces_overwrite loc loc [] true es
      simp only [Node.overwrite, Node.pieces, map_overwrite_padding, hfields]
      simp [map_overwrite_joinPieces, Piece.overwrite]
    | inlineDotted | dotted | implicit | headed => rfl
  | tables ts => rfl

theorem itemPieces_overwrite (loc : List Step) (i : Nat) (margin : Margin) (ns : List Node) :
    itemPieces loc i margin (overwriteItems (fun path => hit (loc ++ path)) s i ns) =
      (itemPieces loc i margin ns).map (List.map (Piece.overwrite hit s)) := by
  cases ns with
  | nil => rfl
  | cons n ns =>
    have hn := pieces_overwrite loc (loc ++ [Step.item i]) margin n
    simp only [List.append_assoc, List.cons_append, List.nil_append] at hn
    rw [overwriteItems, itemPieces, itemPieces, List.map_cons, hn, itemPieces_overwrite loc (i + 1) Margin.value ns]

theorem fieldPieces_overwrite (within loc : List Step) (path : List Key) (last : Bool) (es : List Entry) :
    fieldPieces within loc path last (overwriteEntries (fun path => hit (loc ++ path)) s es) =
      (fieldPieces within loc path last es).map (List.map (Piece.overwrite hit s)) := by
  match es with
  | [] => rfl
  | (k, n) :: es =>
    have hdotted := dottedFieldPieces_overwrite within (loc ++ [Step.key k.name]) (path ++ [k]) (last && es.isEmpty) n
    have hn := fun margin => pieces_overwrite within (loc ++ [Step.key k.name]) margin n
    simp only [List.append_assoc, List.cons_append, List.nil_append] at hdotted hn
    rw [overwriteEntries, fieldPieces, fieldPieces, List.map_append, fieldPieces_overwrite within loc path last es,
      isInlineDotted_overwrite, isEmpty_overwriteEntries]
    congr 1
    split
    · exact hdotted
    · simp [hn, map_overwrite_pathPieces, Piece.overwrite]

theorem dottedFieldPieces_overwrite (within loc : List Step) (path : List Key) (last : Bool) (n : Node) :
    (n.overwrite (fun path => hit (loc ++ path)) s).dottedFieldPieces within loc path last =
      (n.dottedFieldPieces within loc path last).map (List.map (Piece.overwrite hit s)) := by
  cases n with
  | table form es => exact fieldPieces_overwrite within loc path last es
  | scalar => rw [Node.overwrite]; split <;> rfl
  | array | tables => rfl

end

theorem pieces_overwrite_located (a : Located) :
    (a.overwrite hit s).pieces = a.pieces.map (Piece.overwrite hit s) := by
  simp [Located.pieces, Located.overwrite, pieces_overwrite, map_overwrite_pathPieces, Piece.overwrite]

mutual

theorem locatedAssignments_overwrite (loc : List Step) (path : List Key) (es : List Entry) :
    locatedAssignments loc path (overwriteEntries (fun path => hit (loc ++ path)) s es) =
      (locatedAssignments loc path es).map (Located.overwrite hit s) := by
  match es with
  | [] => rfl
  | (k, n) :: es =>
    have hn := n.locatedAssignments_overwrite (loc ++ [Step.key k.name]) (path ++ [k])
    simp only [List.append_assoc, List.cons_append, List.nil_append] at hn
    rw [overwriteEntries, locatedAssignments, locatedAssignments, List.map_append, hn,
      locatedAssignments_overwrite loc path es]

theorem Node.locatedAssignments_overwrite (loc : List Step) (path : List Key) (n : Node) :
    (n.overwrite (fun path => hit (loc ++ path)) s).locatedAssignments loc path =
      (n.locatedAssignments loc path).map (Located.overwrite hit s) := by
  cases n with
  | scalar data written pad =>
    cases h : hit loc <;> simp [Node.overwrite, Node.locatedAssignments, Located.overwrite, h]
  | table form es =>
    cases form with
    | dotted => exact Toml.locatedAssignments_overwrite loc path es
    | inline | inlineDotted | implicit | headed => rfl
  | array | tables => rfl

end

mutual

theorem locatedSections_overwrite (loc : List Step) (path : List Key) (es : List Entry) :
    locatedSections loc path (overwriteEntries (fun path => hit (loc ++ path)) s es) =
      (locatedSections loc path es).map (LocatedSection.overwrite hit s) := by
  match es with
  | [] => rfl
  | (k, n) :: es =>
    have hn := n.locatedSections_overwrite .table (loc ++ [Step.key k.name]) (path ++ [k])
    simp only [List.append_assoc, List.cons_append, List.nil_append] at hn
    rw [overwriteEntries, locatedSections, locatedSections, List.map_append, hn, locatedSections_overwrite loc path es]

theorem Node.locatedSections_overwrite (kind : HeaderKind) (loc : List Step) (path : List Key) (n : Node) :
    (n.overwrite (fun path => hit (loc ++ path)) s).locatedSections kind loc path =
      (n.locatedSections kind loc path).map (LocatedSection.overwrite hit s) := by
  cases n with
  | table form es =>
    have hbody := locatedAssignments_overwrite hit s loc [] es
    have hsections := Toml.locatedSections_overwrite loc path es
    cases form with
    | dotted => exact hsections
    | headed place pad =>
      simp only [Node.overwrite, Node.locatedSections, hbody, hsections, List.map_cons, LocatedSection.overwrite]
    | implicit =>
      simp only [Node.overwrite, Node.locatedSections, hbody, hsections, List.isEmpty_map]
      split <;> rfl
    | inline | inlineDotted => rfl
  | tables ts => exact locatedElements_overwrite loc 0 path ts
  | scalar => rw [Node.overwrite]; split <;> rfl
  | array => rfl

theorem locatedElements_overwrite (loc : List Step) (i : Nat) (path : List Key) (ts : List Node) :
    locatedElements loc i path (overwriteItems (fun path => hit (loc ++ path)) s i ts) =
      (locatedElements loc i path ts).map (LocatedSection.overwrite hit s) := by
  match ts with
  | [] => rfl
  | t :: ts =>
    have ht := t.locatedSections_overwrite .element (loc ++ [Step.item i]) path
    simp only [List.append_assoc, List.cons_append, List.nil_append] at ht
    rw [overwriteItems, locatedElements, locatedElements, List.map_append, ht,
      locatedElements_overwrite loc (i + 1) path ts]

end

theorem settleLocated_map (f : LocatedSection → LocatedSection) (hf : ∀ x, (f x).place = x.place) (place : Nat)
    (ss : List LocatedSection) :
    settleLocated place (ss.map f) = (settleLocated place ss).map fun x => (x.1, f x.2) := by
  induction ss generalizing place with
  | nil => rfl
  | cons x ss ih => simp only [List.map_cons, settleLocated, hf, ih]

namespace Document

theorem locatedSections_overwrite (d : Document) :
    (d.overwrite hit s).locatedSections = d.locatedSections.map (LocatedSection.overwrite hit s) := by
  have hsort := List.map_insertionSort (r := fun x y : Nat × LocatedSection => x.1 ≤ y.1)
    (s := fun x y => x.1 ≤ y.1) (fun x : Nat × LocatedSection => (x.1, x.2.overwrite hit s))
    (settleLocated 0 (Toml.locatedSections [] [] d.entries)) fun _ _ _ _ => Iff.rfl
  have hsections := Toml.locatedSections_overwrite hit s [] [] d.entries
  have hsettle := settleLocated_map (LocatedSection.overwrite hit s) (fun _ => rfl) 0
    (Toml.locatedSections [] [] d.entries)
  simp only [List.nil_append] at hsections
  rw [locatedSections, overwrite, hsections, hsettle, ← hsort, locatedSections, List.map_map, List.map_map]
  rfl

theorem sectionPieces_overwrite (first : Bool) (ss : List LocatedSection) :
    sectionPieces first (ss.map (LocatedSection.overwrite hit s)) =
      (sectionPieces first ss).map (Piece.overwrite hit s) := by
  have hsection (first : Bool) (x : LocatedSection) :
      (x.overwrite hit s).pieces first = (x.pieces first).map (Piece.overwrite hit s) := by
    simp [LocatedSection.pieces, LocatedSection.overwrite, map_overwrite_padding, map_overwrite_pathPieces,
      List.flatMap_map, List.map_flatMap, pieces_overwrite_located, Piece.overwrite]
  cases ss with
  | nil => rfl
  | cons x ss => simp [sectionPieces, hsection, List.flatMap_map, List.map_flatMap]

theorem pieces_overwrite (d : Document) :
    (d.overwrite hit s).pieces = d.pieces.map (Piece.overwrite hit s) := by
  have hbody := locatedAssignments_overwrite hit s [] [] d.entries
  simp only [List.nil_append] at hbody
  simp only [pieces, locatedSections_overwrite, sectionPieces_overwrite]
  simp [overwrite, hbody, List.flatMap_map, List.map_flatMap, pieces_overwrite_located, Piece.overwrite]

end Document

end Pieces

section Slots

open Entries

mutual

theorem overwrite_of_miss {hit : List Step → Bool} (h : ∀ path, hit path = false) (s : Text) (n : Node) :
    n.overwrite hit s = n := by
  cases n with
  | scalar => simp [Node.overwrite, h]
  | array items => rw [Node.overwrite, overwriteItems_of_miss h]
  | table form es => rw [Node.overwrite, overwriteEntries_of_miss h]
  | tables ts => rw [Node.overwrite, overwriteItems_of_miss h]

theorem overwriteItems_of_miss {hit : List Step → Bool} (h : ∀ path, hit path = false) (s : Text) (i : Nat)
    (ns : List Node) : overwriteItems hit s i ns = ns := by
  cases ns with
  | nil => rfl
  | cons n ns => rw [overwriteItems, overwrite_of_miss (fun path => h _), overwriteItems_of_miss h]

theorem overwriteEntries_of_miss {hit : List Step → Bool} (h : ∀ path, hit path = false) (s : Text)
    (es : List Entry) : overwriteEntries hit s es = es := by
  match es with
  | [] => rfl
  | (k, n) :: es => rw [overwriteEntries, overwrite_of_miss (fun path => h _), overwriteEntries_of_miss h]

end

theorem overwriteEntries_eq_map (hit : List Step → Bool) (s : Text) (es : List Entry) : overwriteEntries hit s es =
    es.map fun e => (e.1, e.2.overwrite (fun path => hit (.key e.1.name :: path)) s) := by
  induction es with
  | nil => rfl
  | cons e es ih => rw [overwriteEntries, ih, List.map_cons]

theorem overwriteEntries_eq_replace {hit : List Step → Bool} {name : Text} {es : List Entry} {data : Scalar}
    {written : Text} {pad : Padding} (s : Text) (hes : distinctEntries es)
    (hfind : find? name es = some (.scalar data written pad))
    (hhit : ∀ path, hit path = true ↔ path = [.key name]) :
    overwriteEntries hit s es = replace name (.scalar (.string s) (encodeString s) pad) es := by
  have hmiss {k : Text} (hk : k ≠ name) (path : List Step) : hit (.key k :: path) = false := by
    rw [Bool.eq_false_iff]
    intro h
    exact hk (by simpa using (hhit _).mp h : k = name ∧ path = []).1
  induction es with
  | nil => simp [find?] at hfind
  | cons e es ih =>
    obtain ⟨hfresh, -, hes⟩ := hes
    obtain ⟨k, n⟩ := e
    by_cases hk : k.name = name
    · obtain rfl : n = .scalar data written pad := by simpa [find?, hk] using hfind
      have hself : hit [.key k.name] = true := (hhit _).mpr (by rw [hk])
      have hothers : overwriteEntries hit s es = es := by
        rw [overwriteEntries_eq_map]
        refine (List.map_congr_left fun f hf => ?_).trans (List.map_id' es)
        have hne : f.1.name ≠ name := hk ▸ find?_eq_none_of_mem hfresh hf
        rw [overwrite_of_miss (hmiss hne)]
      rw [overwriteEntries, hothers, Node.overwrite, hself, replace, if_pos hk, if_pos rfl]
    · have hfind' : find? name es = some (.scalar data written pad) := by simpa [find?, hk] using hfind
      rw [overwriteEntries, replace, if_neg hk, overwrite_of_miss (hmiss hk), ih hes hfind']

/-- The function puts the string into the slots of a node, where each of them has a string already. -/
def Overwrites (slot : Data → List Step → Prop) (s : Text) (g : Node → Node) : Prop :=
  ∀ (n : Node) (hit : List Step → Bool), n.Distinct → (∀ path, hit path = true ↔ slot n.data path) →
    (∀ path, slot n.data path → ∃ t, n.data.at? path = some (.string t)) → n.overwrite hit s = g n

namespace Overwrites

variable {slot slot' : Data → List Step → Prop} {s : Text} {g : Node → Node}

theorem congr (h : Overwrites slot s g) (hslot : ∀ d path, slot' d path ↔ slot d path) : Overwrites slot' s g := by
  intro n hit hn hhit hstring
  exact h n hit hn (fun path => (hhit path).trans (hslot _ _)) fun path hpath => hstring path ((hslot _ _).mpr hpath)

theorem refl (hslot : ∀ d path, ¬slot d path) (s : Text) : Overwrites slot s id :=
  fun n _ _ hhit _ => overwrite_of_miss (fun path => Bool.eq_false_iff.mpr (mt (hhit path).mp (hslot _ _))) s n

theorem mapEntries {inner : Text → Data → List Step → Prop} {g : Text → Node → Node}
    (h : ∀ name, Overwrites (inner name) s (g name)) :
    Overwrites (Below inner) s (Node.mapEntries (List.map fun e => (e.1, g e.1.name e.2))) := by
  intro n hit hn hhit hstring
  cases n with
  | table form es =>
    rw [Node.overwrite, overwriteEntries_eq_map, Node.mapEntries]
    congr 1
    refine List.map_congr_left fun ⟨k, m⟩ hmem => ?_
    obtain ⟨hfind, hm⟩ := distinctEntries_mem hn hmem
    have hchild : (Node.table form es).data.child? (.key k.name) = some m.data := by
      simp [Data.child?, Data.get?, Node.data, lookup_entryData, hfind]
    have hslot (path : List Step) : Below inner (Node.table form es).data (.key k.name :: path) ↔
        inner k.name m.data path := by
      rw [below_iff, hchild]
      simp
    rw [h k.name m _ hm (fun path => (hhit _).trans (hslot path))]
    intro path hpath
    have hat := hstring (.key k.name :: path) ((hslot path).mpr hpath)
    rwa [Data.at?, hchild] at hat
  | scalar | array | tables =>
    refine overwrite_of_miss (fun path => Bool.eq_false_iff.mpr fun hpath => ?_) s _
    obtain ⟨he, -⟩ := (hhit path).mp hpath
    contradiction

end Overwrites

end Slots

end WorkspaceRelease.Toml

import WorkspaceRelease.Proofs.Toml.Pieces
import WorkspaceRelease.Toml.Outline

/-!
The comments of a printed document, and the brackets or braces they stand in. Margins have none, so the comments of a
value do not depend on where it is printed.
-/

namespace WorkspaceRelease.Toml

/-- A comment, and the value within whose brackets or braces it stands. -/
structure Comment where
  within : List Step
  text : Text
  deriving DecidableEq, Repr

def commentsIn (t : Text) : List Text :=
  (Text.splitOn '\n' t).filterMap fun line =>
    match line.dropWhile (· ≠ '#') with
    | [] => none
    | c :: s => some (c :: s)

def Piece.comments : Piece → List Comment
  | .trivia within t => (commentsIn t).map (Comment.mk within)
  | .token _ => []
  | .value _ _ => []

def comments (ps : List Piece) : List Comment := ps.flatMap Piece.comments

/-- The comments that the outline of a text shows. -/
def Outline.comments : Nat → Text → List Text
  | 0, _ => []
  | fuel + 1, s =>
    match next? s with
    | none => []
    | some (token, rest) => (if token = .comment then [s.takeWhile isLineChar] else []) ++ comments fuel rest

section Comments

@[simp] theorem comments_nil : comments [] = [] := rfl

@[simp] theorem comments_append (ps qs : List Piece) : comments (ps ++ qs) = comments ps ++ comments qs :=
  List.flatMap_append

theorem comments_cons (p : Piece) (ps : List Piece) : comments (p :: ps) = p.comments ++ comments ps :=
  List.flatMap_cons

@[simp] theorem comments_token (t : Text) (ps : List Piece) : comments (.token t :: ps) = comments ps := rfl

@[simp] theorem comments_value (loc : List Step) (t : Text) (ps : List Piece) :
    comments (.value loc t :: ps) = comments ps :=
  rfl

theorem comments_flatMap {α : Type} (f : α → List Piece) (as : List α) :
    comments (as.flatMap f) = as.flatMap fun a => comments (f a) :=
  List.flatMap_assoc

theorem comments_joinPieces (pss : List (List Piece)) : comments (joinPieces pss) = pss.flatMap comments :=
  flatMap_joinPieces rfl comments_append rfl pss

/-- Margins without comments. -/
structure Margin.Plain (margin : Margin) : Prop where
  before : commentsIn margin.before = []
  after : commentsIn margin.after = []

theorem Margin.Plain.none : Margin.none.Plain := ⟨rfl, rfl⟩

theorem Margin.Plain.value : Margin.value.Plain := ⟨rfl, rfl⟩

theorem Margin.Plain.lastValue : Margin.lastValue.Plain := ⟨rfl, rfl⟩

def Padding.leading (pad : Padding) (within : List Step) : List Comment :=
  (commentsIn (pad.before.getD [])).map (Comment.mk within)

def Padding.trailing (pad : Padding) (within : List Step) : List Comment :=
  (commentsIn (pad.after.getD [])).map (Comment.mk within)

theorem comments_padding {margin : Margin} (h : margin.Plain) (pad : Padding) (within : List Step)
    (ps : List Piece) :
    comments (pad.pieces margin within ps) = pad.leading within ++ comments ps ++ pad.trailing within := by
  have hside (side : Option Text) {t : Text} (ht : commentsIn t = []) :
      commentsIn (side.getD t) = commentsIn (side.getD []) := by
    cases side with
    | none => exact ht
    | some s => rfl
  have hbefore := hside pad.before h.before
  have hafter := hside pad.after h.after
  simp [Padding.pieces, comments_cons, Piece.comments, Padding.leading, Padding.trailing, hbefore, hafter]

theorem infix_joinWith (sep : Text) {piece : Text} {pieces : List Text} (h : piece ∈ pieces) :
    piece <:+: Text.joinWith sep pieces := by
  induction pieces with
  | nil => simp at h
  | cons p pieces ih =>
    cases pieces with
    | nil =>
      obtain rfl := List.mem_singleton.mp h
      exact List.infix_rfl
    | cons q pieces =>
      have hjoin : Text.joinWith sep (p :: q :: pieces) = p ++ sep ++ Text.joinWith sep (q :: pieces) := rfl
      rw [hjoin]
      rcases List.mem_cons.mp h with rfl | h
      · rw [List.append_assoc]
        exact (List.prefix_append _ _).isInfix
      · exact (ih h).trans (List.suffix_append _ _).isInfix

theorem infix_of_mem_commentsIn {s t : Text} (h : s ∈ commentsIn t) : s <:+: t := by
  obtain ⟨line, hline, hs⟩ := List.mem_filterMap.mp h
  have hsuffix : s <:+ line := by
    split at hs
    · contradiction
    next c rest hdrop =>
      obtain rfl := Option.some.inj hs
      rw [← hdrop]
      exact List.dropWhile_suffix _
  have hjoin := infix_joinWith ['\n'] hline
  rw [Text.joinWith_splitOn] at hjoin
  exact hsuffix.isInfix.trans hjoin

theorem infix_of_mem_comments {c : Comment} {ps : List Piece} (h : c ∈ comments ps) : c.text <:+: piecesText ps := by
  obtain ⟨p, hp, hc⟩ := List.mem_flatMap.mp h
  cases p with
  | trivia within t =>
    obtain ⟨s, hs, rfl⟩ := List.mem_map.mp hc
    obtain ⟨before, after, rfl⟩ := List.append_of_mem hp
    have hpiece : t <:+: piecesText (before ++ .trivia within t :: after) := by
      rw [piecesText_append, piecesText_cons]
      exact ⟨_, _, List.append_assoc _ _ _⟩
    exact (infix_of_mem_commentsIn hs).trans hpiece
  | token | value => exact nomatch hc

end Comments

section Values

def Node.comments (within loc : List Step) (n : Node) : List Comment :=
  Toml.comments (n.pieces within loc Margin.none)

theorem Node.comments_eq {margin : Margin} (h : margin.Plain) (within loc : List Step) (n : Node) :
    Toml.comments (n.pieces within loc margin) = n.comments within loc := by
  unfold Node.comments
  cases n with
  | scalar data written pad => rw [Node.pieces, Node.pieces, comments_padding h, comments_padding .none]
  | array items comma trailing pad => rw [Node.pieces, Node.pieces, comments_padding h, comments_padding .none]
  | table form es =>
    cases form with
    | inline preamble pad => simp only [Node.pieces, comments_padding h, comments_padding .none]
    | inlineDotted | dotted | implicit | headed => rfl
  | tables ts => rfl

/-- The comments of the fields that go on from a path. -/
def Node.dottedComments (within loc : List Step) (path : List Key) (n : Node) : List Comment :=
  (n.dottedFieldPieces within loc path false).flatMap Toml.comments

/-- The comments of a field between braces. -/
def fieldComments (within loc : List Step) (path : List Key) (e : Entry) : List Comment :=
  if e.2.isInlineDotted then e.2.dottedComments within (loc ++ [.key e.1.name]) (path ++ [e.1])
  else
    comments (Key.pathPieces Margin.inlineKey within (path ++ [e.1])) ++ e.2.comments within (loc ++ [.key e.1.name])

mutual

theorem comments_fieldPieces (within loc : List Step) (path : List Key) (last : Bool) (es : List Entry) :
    (fieldPieces within loc path last es).flatMap comments = es.flatMap (fieldComments within loc path) := by
  match es with
  | [] => rfl
  | (k, n) :: es =>
    have hmargin : (if last && es.isEmpty then Margin.lastValue else Margin.value).Plain := by
      split
      · exact .lastValue
      · exact .value
    rw [fieldPieces, List.flatMap_append, List.flatMap_cons, comments_fieldPieces within loc path last es]
    congr 1
    unfold fieldComments
    split
    · exact comments_dottedFieldPieces within (loc ++ [.key k.name]) (path ++ [k]) (last && es.isEmpty) n
    · rw [List.flatMap_singleton, comments_append, comments_token, Node.comments_eq hmargin]

theorem comments_dottedFieldPieces (within loc : List Step) (path : List Key) (last : Bool) (n : Node) :
    (n.dottedFieldPieces within loc path last).flatMap comments = n.dottedComments within loc path := by
  cases n with
  | table form es =>
    have hlast := comments_fieldPieces within loc path last es
    have hfalse := comments_fieldPieces within loc path false es
    exact hlast.trans hfalse.symm
  | scalar | array | tables => rfl

end

theorem dottedComments_table (within loc : List Step) (path : List Key) (form : TableForm) (es : List Entry) :
    (Node.table form es).dottedComments within loc path = es.flatMap (fieldComments within loc path) :=
  comments_fieldPieces within loc path false es

theorem comments_inline (within loc : List Step) (preamble : Text) (pad : Padding) (es : List Entry) :
    (Node.table (.inline preamble pad) es).comments within loc = pad.leading within ++
      ((commentsIn preamble).map (Comment.mk loc) ++ es.flatMap (fieldComments loc loc [])) ++ pad.trailing within := by
  simp [Node.comments, Node.pieces, comments_padding .none, comments_cons, Piece.comments, comments_joinPieces,
    comments_fieldPieces]

theorem comments_array (within loc : List Step) (items : List Node) (comma : Bool) (trailing : Text) (pad : Padding) :
    (Node.array items comma trailing pad).comments within loc = pad.leading within ++
      ((itemPieces loc 0 Margin.none items).flatMap comments ++ (commentsIn trailing).map (Comment.mk loc)) ++
        pad.trailing within := by
  cases comma <;>
    simp [Node.comments, Node.pieces, comments_padding .none, comments_cons, Piece.comments, comments_joinPieces]

theorem comments_scalar (within loc : List Step) (data : Scalar) (written : Text) (pad : Padding) :
    (Node.scalar data written pad).comments within loc = pad.leading within ++ pad.trailing within := by
  simp [Node.comments, Node.pieces, comments_padding .none]

end Values

section Lines

def Located.comments (a : Located) : List Comment := Toml.comments a.pieces

theorem Located.comments_eq (loc : List Step) (path : List Key) (n : Node) : Located.comments ⟨loc, path, n⟩ =
    Toml.comments (Key.pathPieces Margin.tableKey [] path) ++ n.comments [] loc := by
  simp [Located.comments, Located.pieces, Node.comments_eq .value]

def LocatedSection.comments (s : LocatedSection) : List Comment :=
  s.pad.leading [] ++ Toml.comments (Key.pathPieces Margin.none [] s.path) ++ s.pad.trailing [] ++
    s.body.flatMap Located.comments

theorem LocatedSection.comments_pieces (first : Bool) (s : LocatedSection) :
    Toml.comments (s.pieces first) = s.comments := by
  have hbefore : commentsIn (s.pad.before.getD (if first then [] else ['\n'])) = commentsIn (s.pad.before.getD []) := by
    cases s.pad.before with
    | none => cases first <;> rfl
    | some t => rfl
  have hbody : Toml.comments (s.body.flatMap Located.pieces) = s.body.flatMap Located.comments := comments_flatMap _ _
  simp [LocatedSection.pieces, LocatedSection.comments, comments_padding .none, Padding.leading, Padding.trailing,
    hbefore, hbody]

theorem comments_document (d : Document) : comments d.pieces =
    (locatedAssignments [] [] d.entries).flatMap Located.comments ++
      d.locatedSections.flatMap LocatedSection.comments ++ (commentsIn d.trailing).map (Comment.mk []) := by
  have hsections (first : Bool) (ss : List LocatedSection) :
      comments (Document.sectionPieces first ss) = ss.flatMap LocatedSection.comments := by
    cases ss with
    | nil => rfl
    | cons s ss =>
      simp [Document.sectionPieces, LocatedSection.comments_pieces, comments_flatMap]
  have hbody : comments ((locatedAssignments [] [] d.entries).flatMap Located.pieces) =
      (locatedAssignments [] [] d.entries).flatMap Located.comments := comments_flatMap _ _
  simp [Document.pieces, hsections, hbody, comments_cons, Piece.comments]

theorem locatedAssignments_eq_flatMap (loc : List Step) (path : List Key) (es : List Entry) :
    locatedAssignments loc path es =
      es.flatMap fun e => e.2.locatedAssignments (loc ++ [.key e.1.name]) (path ++ [e.1]) := by
  induction es with
  | nil => rfl
  | cons e es ih => rw [locatedAssignments, ih, List.flatMap_cons]

theorem locatedSections_eq_flatMap (loc : List Step) (path : List Key) (es : List Entry) :
    locatedSections loc path es =
      es.flatMap fun e => e.2.locatedSections .table (loc ++ [.key e.1.name]) (path ++ [e.1]) := by
  induction es with
  | nil => rfl
  | cons e es ih => rw [locatedSections, ih, List.flatMap_cons]

end Lines

section Inside

/-- All comments stand within the value at a place, at whatever depth. -/
def Inside (loc : List Step) (cs : List Comment) : Prop := ∀ c ∈ cs, loc <+: c.within

section Pieces

variable {loc within : List Step}

theorem Inside.append {cs ds : List Comment} (hcs : Inside loc cs) (hds : Inside loc ds) : Inside loc (cs ++ ds) := by
  intro c hc
  rcases List.mem_append.mp hc with hc | hc
  · exact hcs c hc
  · exact hds c hc

theorem inside_commentsIn (h : loc <+: within) (t : Text) : Inside loc ((commentsIn t).map (Comment.mk within)) := by
  intro c hc
  obtain ⟨s, -, rfl⟩ := List.mem_map.mp hc
  exact h

theorem inside_padding (h : loc <+: within) (pad : Padding) {cs : List Comment} (hcs : Inside loc cs) :
    Inside loc (pad.leading within ++ cs ++ pad.trailing within) :=
  ((inside_commentsIn h _).append hcs).append (inside_commentsIn h _)

theorem inside_dottedPieces (h : loc <+: within) (path : List Key) :
    Inside loc (comments (Key.dottedPieces within path)) := by
  induction path with
  | nil => exact fun _ hc => nomatch hc
  | cons k path ih =>
    cases path with
    | nil => exact fun _ hc => nomatch hc
    | cons l path => exact ((inside_commentsIn h _).append ((inside_commentsIn h _).append ih))

theorem inside_pathPieces (h : loc <+: within) (margin : Margin) (path : List Key) :
    Inside loc (comments (Key.pathPieces margin within path)) := by
  unfold Key.pathPieces
  cases path.getLast? with
  | none => exact fun _ hc => nomatch hc
  | some last =>
    simp only [Padding.pieces, comments_cons, comments_append, List.cons_append, Piece.comments, comments_nil,
      List.append_nil]
    exact (inside_commentsIn h _).append ((inside_dottedPieces h path).append (inside_commentsIn h _))

end Pieces

mutual

theorem Node.inside_comments {root within loc : List Step} (hwithin : root <+: within) (hloc : root <+: loc)
    (n : Node) : Inside root (n.comments within loc) := by
  cases n with
  | scalar data written pad =>
    rw [comments_scalar]
    exact (inside_commentsIn hwithin _).append (inside_commentsIn hwithin _)
  | array items comma trailing pad =>
    rw [comments_array]
    exact inside_padding hwithin pad ((inside_items hloc 0 .none items).append (inside_commentsIn hloc _))
  | table form es =>
    cases form with
    | inline preamble pad =>
      rw [comments_inline]
      exact inside_padding hwithin pad ((inside_commentsIn hloc _).append (inside_fields hloc hloc [] es))
    | inlineDotted | dotted | implicit | headed => exact fun _ hc => nomatch hc
  | tables ts => exact fun _ hc => nomatch hc

theorem inside_items {root loc : List Step} (hloc : root <+: loc) (i : Nat) {margin : Margin} (h : margin.Plain)
    (ns : List Node) : Inside root ((itemPieces loc i margin ns).flatMap comments) := by
  cases ns with
  | nil => exact fun _ hc => nomatch hc
  | cons n ns =>
    have hitem : root <+: loc ++ [.item i] := hloc.trans (List.prefix_append _ _)
    rw [itemPieces, List.flatMap_cons, Node.comments_eq h]
    exact (n.inside_comments hloc hitem).append (inside_items hloc (i + 1) .value ns)

theorem inside_fields {root within loc : List Step} (hwithin : root <+: within) (hloc : root <+: loc) (path : List Key)
    (es : List Entry) : Inside root (es.flatMap (fieldComments within loc path)) := by
  match es with
  | [] => exact fun _ hc => nomatch hc
  | (k, n) :: es =>
    have hfield : root <+: loc ++ [.key k.name] := hloc.trans (List.prefix_append _ _)
    rw [List.flatMap_cons]
    refine Inside.append ?_ (inside_fields hwithin hloc path es)
    unfold fieldComments
    split
    · exact n.inside_dottedComments hwithin hfield (path ++ [k])
    · exact (inside_pathPieces hwithin _ _).append (n.inside_comments hwithin hfield)

theorem Node.inside_dottedComments {root within loc : List Step} (hwithin : root <+: within) (hloc : root <+: loc)
    (path : List Key) (n : Node) : Inside root (n.dottedComments within loc path) := by
  cases n with
  | table form es =>
    rw [dottedComments_table]
    exact inside_fields hwithin hloc path es
  | scalar | array | tables => exact fun _ hc => nomatch hc

end

end Inside

end WorkspaceRelease.Toml

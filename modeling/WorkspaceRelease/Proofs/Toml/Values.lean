import WorkspaceRelease.Proofs.Toml.Forms
import WorkspaceRelease.Proofs.Toml.Pieces

/-!
The scalars of a tree and the pieces that print them. A document that was read prints each of its scalars once, in
the piece of its path.
-/

namespace WorkspaceRelease.Toml

/-- Paths and texts of scalars, seen from further above. -/
def under (loc : List Step) (xs : List (List Step × Text)) : List (List Step × Text) :=
  xs.map fun x => (loc ++ x.1, x.2)

mutual

/-- The scalars below a node, each with its path and its text. -/
def Node.scalars : Node → List (List Step × Text)
  | .scalar _ written _ => [([], written)]
  | .array items _ _ _ => itemScalars 0 items
  | .table _ es => entryScalars es
  | .tables ts => itemScalars 0 ts

def itemScalars (i : Nat) : List Node → List (List Step × Text)
  | [] => []
  | n :: ns => under [.item i] n.scalars ++ itemScalars (i + 1) ns

def entryScalars : List (Key × Node) → List (List Step × Text)
  | [] => []
  | (k, n) :: es => under [.key k.name] n.scalars ++ entryScalars es

end

/-- The text of the scalar at a path. -/
def Node.textAt? (n : Node) (path : List Step) : Option Text :=
  match n.at? path with
  | some (.scalar _ written _) => some written
  | _ => none

def textsAt (path : List Step) (xs : List (List Step × Text)) : List Text :=
  xs.filterMap fun x => if x.1 = path then some x.2 else none

section Texts

@[simp] theorem textsAt_nil (path : List Step) : textsAt path [] = [] := rfl

@[simp] theorem textsAt_append (path : List Step) (xs ys : List (List Step × Text)) :
    textsAt path (xs ++ ys) = textsAt path xs ++ textsAt path ys := List.filterMap_append

@[simp] theorem textsAt_under_nil (step : Step) (xs : List (List Step × Text)) : textsAt [] (under [step] xs) = [] := by
  simp [textsAt, under]

@[simp] theorem textsAt_under_cons (step other : Step) (path : List Step) (xs : List (List Step × Text)) :
    textsAt (step :: path) (under [other] xs) = if other = step then textsAt path xs else [] := by
  split
  next h => simp [textsAt, under, h, List.filterMap_map]
  next h => simp [textsAt, under, h]

theorem textsAt_itemScalars_nil (i : Nat) (ns : List Node) : textsAt [] (itemScalars i ns) = [] := by
  induction ns generalizing i with
  | nil => rfl
  | cons n ns ih => simp [itemScalars, ih]

theorem textsAt_itemScalars_key (name : Text) (path : List Step) (i : Nat) (ns : List Node) :
    textsAt (.key name :: path) (itemScalars i ns) = [] := by
  induction ns generalizing i with
  | nil => rfl
  | cons n ns ih => simp [itemScalars, ih]

theorem textsAt_itemScalars_lt {i j : Nat} (h : j < i) (path : List Step) (ns : List Node) :
    textsAt (.item j :: path) (itemScalars i ns) = [] := by
  induction ns generalizing i with
  | nil => rfl
  | cons n ns ih => simp [itemScalars, ih (Nat.lt_succ_of_lt h), (Nat.ne_of_lt h).symm]

theorem textsAt_entryScalars_nil (es : List Entry) : textsAt [] (entryScalars es) = [] := by
  induction es with
  | nil => rfl
  | cons e es ih => simp [entryScalars, ih]

theorem textsAt_entryScalars_item (i : Nat) (path : List Step) (es : List Entry) :
    textsAt (.item i :: path) (entryScalars es) = [] := by
  induction es with
  | nil => rfl
  | cons e es ih => simp [entryScalars, ih]

theorem textsAt_entryScalars_of_none {name : Text} {es : List Entry} (h : Entries.find? name es = none)
    (path : List Step) : textsAt (.key name :: path) (entryScalars es) = [] := by
  induction es with
  | nil => rfl
  | cons e es ih =>
    by_cases hk : e.1.name = name
    · simp [Entries.find?, hk] at h
    · have hes : Entries.find? name es = none := by simpa [Entries.find?, hk] using h
      simp [entryScalars, hk, ih hes]

theorem textAt?_cons (n : Node) (step : Step) (path : List Step) :
    n.textAt? (step :: path) = (n.child? step).bind fun m => m.textAt? path := by
  unfold Node.textAt?
  rw [Node.at?]
  cases n.child? step <;> rfl

mutual

theorem textsAt_scalars {n : Node} (h : n.Distinct) (path : List Step) :
    textsAt path n.scalars = (n.textAt? path).toList := by
  cases n with
  | scalar data written pad =>
    cases path with
    | nil => rfl
    | cons step path => simp [Node.scalars, textsAt, textAt?_cons, Node.child?]
  | array items comma trailing pad =>
    match path with
    | [] => exact textsAt_itemScalars_nil 0 items
    | .key name :: path => exact textsAt_itemScalars_key name path 0 items
    | .item i :: path => rw [Node.scalars, textsAt_itemScalars h (Nat.zero_le i), textAt?_cons]; rfl
  | table form es =>
    match path with
    | [] => exact textsAt_entryScalars_nil es
    | .key name :: path => rw [Node.scalars, textsAt_entryScalars h, textAt?_cons]; rfl
    | .item i :: path => exact textsAt_entryScalars_item i path es
  | tables ts =>
    match path with
    | [] => exact textsAt_itemScalars_nil 0 ts
    | .key name :: path => exact textsAt_itemScalars_key name path 0 ts
    | .item i :: path => rw [Node.scalars, textsAt_itemScalars h.2 (Nat.zero_le i), textAt?_cons]; rfl

theorem textsAt_itemScalars {ns : List Node} (h : distinctItems ns) {i j : Nat} (hij : i ≤ j) (path : List Step) :
    textsAt (.item j :: path) (itemScalars i ns) = (ns[j - i]?.bind fun n => n.textAt? path).toList := by
  cases ns with
  | nil => rfl
  | cons n ns =>
    rw [itemScalars, textsAt_append, textsAt_under_cons]
    rcases Nat.eq_or_lt_of_le hij with rfl | hlt
    · simp [textsAt_itemScalars_lt (Nat.lt_succ_self i), textsAt_scalars h.1]
    · obtain ⟨k, rfl⟩ := Nat.exists_eq_add_of_lt hlt
      have hk : i + k + 1 - i = k + 1 := by omega
      have hk' : i + k + 1 - (i + 1) = k := by omega
      rw [textsAt_itemScalars h.2 hlt, hk, hk', if_neg (by simp; omega)]
      rfl

theorem textsAt_entryScalars {es : List Entry} (h : distinctEntries es) (name : Text) (path : List Step) :
    textsAt (.key name :: path) (entryScalars es) =
      ((Entries.find? name es).bind fun n => n.textAt? path).toList := by
  match es with
  | [] => rfl
  | (k, n) :: es =>
    obtain ⟨hfresh, hn, hes⟩ := h
    rw [entryScalars, textsAt_append, textsAt_under_cons, Entries.find?]
    by_cases hk : k.name = name
    · subst hk
      simp [textsAt_entryScalars_of_none hfresh, textsAt_scalars hn]
    · simp [hk, textsAt_entryScalars hes]

end

end Texts

def Piece.value? : Piece → Option (List Step × Text)
  | .value loc t => some (loc, t)
  | _ => none

def values (ps : List Piece) : List (List Step × Text) := ps.filterMap Piece.value?

section Values

@[simp] theorem values_nil : values [] = [] := rfl

@[simp] theorem values_append (ps qs : List Piece) : values (ps ++ qs) = values ps ++ values qs :=
  List.filterMap_append

@[simp] theorem values_trivia (within : List Step) (t : Text) (ps : List Piece) :
    values (.trivia within t :: ps) = values ps := rfl

@[simp] theorem values_token (t : Text) (ps : List Piece) : values (.token t :: ps) = values ps := rfl

@[simp] theorem values_value (loc : List Step) (t : Text) (ps : List Piece) :
    values (.value loc t :: ps) = (loc, t) :: values ps := rfl

theorem values_flatMap {α : Type} (f : α → List Piece) (as : List α) :
    values (as.flatMap f) = as.flatMap fun a => values (f a) := by
  induction as with
  | nil => rfl
  | cons a as ih => simp [ih]

theorem values_joinPieces (pss : List (List Piece)) : values (joinPieces pss) = pss.flatMap values :=
  flatMap_joinPieces rfl values_append rfl pss

@[simp] theorem values_padding (pad : Padding) (margin : Margin) (within : List Step) (ps : List Piece) :
    values (pad.pieces margin within ps) = values ps := by
  simp [Padding.pieces]

theorem values_dottedPieces (within : List Step) (path : List Key) : values (Key.dottedPieces within path) = [] := by
  induction path with
  | nil => rfl
  | cons k ks ih => cases ks <;> simp [Key.dottedPieces, ih]

@[simp] theorem values_pathPieces (margin : Margin) (within : List Step) (path : List Key) :
    values (Key.pathPieces margin within path) = [] := by
  unfold Key.pathPieces
  cases path.getLast? with
  | none => rfl
  | some last => rw [values_padding, values_dottedPieces]

@[simp] theorem under_append (loc : List Step) (xs ys : List (List Step × Text)) :
    under loc (xs ++ ys) = under loc xs ++ under loc ys := List.map_append

theorem under_under (loc : List Step) (step : Step) (xs : List (List Step × Text)) :
    under loc (under [step] xs) = under (loc ++ [step]) xs := by
  simp [under]

theorem Node.Fits.value_of_field {n : Node} (h : n.Fits .field) (hn : n.isInlineDotted = false) : n.Fits .value := by
  match n, h with
  | .scalar _ _ _, _ => exact Site.noConfusion
  | .array _ _ _ _, ⟨_, hitems⟩ => exact ⟨Site.noConfusion, hitems⟩
  | .table (.inline _ _) _, ⟨_, hes⟩ => exact ⟨Site.noConfusion, hes⟩
  | .table .inlineDotted _, _ => exact nomatch hn

mutual

theorem values_pieces {n : Node} (h : n.Fits .value) (within loc : List Step) (margin : Margin) :
    values (n.pieces within loc margin) = under loc n.scalars := by
  cases n with
  | scalar data written pad => simp [Node.pieces, Node.scalars, under]
  | array items comma trailing pad =>
    have hitems := values_itemPieces h.2 loc 0 Margin.none
    cases comma <;> simp [Node.pieces, Node.scalars, values_joinPieces, hitems]
  | table form es =>
    cases form with
    | inline preamble pad =>
      have hfields := values_fieldPieces h.2 loc loc [] true
      simp [Node.pieces, Node.scalars, values_joinPieces, hfields]
    | inlineDotted | dotted | implicit | headed => simp [Node.Fits] at h
  | tables ts => simp [Node.Fits] at h

theorem values_itemPieces {ns : List Node} (h : itemsFit .value ns) (loc : List Step) (i : Nat) (margin : Margin) :
    (itemPieces loc i margin ns).flatMap values = under loc (itemScalars i ns) := by
  cases ns with
  | nil => rfl
  | cons n ns =>
    rw [itemPieces, List.flatMap_cons, values_pieces h.1, values_itemPieces h.2, itemScalars, under_append, under_under]

theorem values_fieldPieces {es : List Entry} (h : entriesFit .field es) (within loc : List Step) (path : List Key)
    (last : Bool) : (fieldPieces within loc path last es).flatMap values = under loc (entryScalars es) := by
  match es with
  | [] => rfl
  | (k, n) :: es =>
    rw [fieldPieces, List.flatMap_append, values_fieldPieces h.2, entryScalars, under_append, under_under]
    congr 1
    cases hn : n.isInlineDotted with
    | true =>
      simp only [↓reduceIte]
      exact values_dottedFieldPieces h.1 hn within _ _ _
    | false => simp [values_pieces (h.1.value_of_field hn)]

theorem values_dottedFieldPieces {n : Node} (h : n.Fits .field) (hn : n.isInlineDotted = true)
    (within loc : List Step) (path : List Key) (last : Bool) :
    (n.dottedFieldPieces within loc path last).flatMap values = under loc n.scalars := by
  match n, h with
  | .table .inlineDotted es, ⟨_, hes⟩ => exact values_fieldPieces hes within loc path last

end

def Located.values (a : Located) : List (List Step × Text) := Toml.values a.pieces

def LocatedSection.values (s : LocatedSection) : List (List Step × Text) := s.body.flatMap Located.values

theorem values_located {n : Node} (h : n.Fits .value) (loc : List Step) (path : List Key) :
    Located.values ⟨loc, path, n⟩ = under loc n.scalars := by
  simp [Located.values, Located.pieces, values_pieces h]

theorem interleave_perm {α : Type} {a₁ a₂ s₁ s₂ b₁ b₂ : List α} (h₁ : (a₁ ++ s₁).Perm b₁) (h₂ : (a₂ ++ s₂).Perm b₂) :
    ((a₁ ++ a₂) ++ (s₁ ++ s₂)).Perm (b₁ ++ b₂) := by
  refine .trans ?_ (h₁.append h₂)
  simp only [List.append_assoc]
  exact .append_left a₁ (List.perm_append_comm_assoc _ _ _)

theorem locatedAssignments_element {n : Node} (h : n.Fits .element) (loc : List Step) (path : List Key) :
    n.locatedAssignments loc path = [] := by
  cases n with
  | table form es =>
    cases form with
    | inline | dotted => exact nomatch h.1
    | inlineDotted | implicit | headed => rfl
  | scalar => exact absurd rfl h
  | array => exact absurd rfl h.1
  | tables => rfl

mutual

theorem values_node {n : Node} {site : Site} (h : n.Fits site) (hsite : site = .entry ∨ site = .element)
    (kind : HeaderKind) (loc : List Step) (path prior : List Key) :
    ((n.locatedAssignments loc path).flatMap Located.values ++
      (n.locatedSections kind loc prior).flatMap LocatedSection.values).Perm (under loc n.scalars) := by
  cases n with
  | scalar data written pad =>
    have hn : (Node.scalar data written pad).Fits .value := Site.noConfusion
    simp [Node.locatedAssignments, Node.locatedSections, values_located hn]
  | array items comma trailing pad =>
    have hn : (Node.array items comma trailing pad).Fits .value := ⟨Site.noConfusion, h.2⟩
    simp [Node.locatedAssignments, Node.locatedSections, values_located hn]
  | table form es =>
    cases form with
    | inline preamble pad =>
      have hn : (Node.table (.inline preamble pad) es).Fits .value := ⟨Site.noConfusion, h.2⟩
      simp [Node.locatedAssignments, Node.locatedSections, values_located hn]
    | inlineDotted => rcases hsite with rfl | rfl <;> exact nomatch h.1
    | dotted => exact values_entries h.2 loc path prior
    | headed place pad => exact values_entries h.2 loc [] prior
    | implicit =>
      have hes := values_entries h.2 loc [] prior
      simp only [Node.locatedAssignments, Node.locatedSections, Node.scalars]
      split
      next hempty =>
        rw [List.isEmpty_iff.mp hempty] at hes
        exact hes
      next => exact hes
  | tables ts => exact values_elements h.2 loc 0 prior

theorem values_entries {es : List Entry} (h : entriesFit .entry es) (loc : List Step) (path prior : List Key) :
    ((locatedAssignments loc path es).flatMap Located.values ++
      (locatedSections loc prior es).flatMap LocatedSection.values).Perm (under loc (entryScalars es)) := by
  match es with
  | [] => exact .refl _
  | (k, n) :: es =>
    have hn := values_node h.1 (.inl rfl) .table (loc ++ [Step.key k.name]) (path ++ [k]) (prior ++ [k])
    rw [locatedAssignments, locatedSections, List.flatMap_append, List.flatMap_append, entryScalars, under_append,
      under_under]
    exact interleave_perm hn (values_entries h.2 loc path prior)

theorem values_elements {ts : List Node} (h : itemsFit .element ts) (loc : List Step) (i : Nat) (prior : List Key) :
    ((locatedElements loc i prior ts).flatMap LocatedSection.values).Perm (under loc (itemScalars i ts)) := by
  match ts with
  | [] => exact .refl _
  | t :: ts =>
    have ht := values_node h.1 (.inr rfl) .element (loc ++ [Step.item i]) [] prior
    rw [locatedAssignments_element h.1, List.flatMap_nil, List.nil_append] at ht
    rw [locatedElements, List.flatMap_append, itemScalars, under_append, under_under]
    exact ht.append (values_elements h.2 loc (i + 1) prior)

end

theorem settleLocated_snd (place : Nat) (ss : List LocatedSection) : (settleLocated place ss).map (·.2) = ss := by
  induction ss generalizing place with
  | nil => rfl
  | cons s ss ih => rw [settleLocated, List.map_cons, ih]

theorem values_sectionPieces (first : Bool) (ss : List LocatedSection) :
    values (Document.sectionPieces first ss) = ss.flatMap LocatedSection.values := by
  have hsection (first : Bool) (s : LocatedSection) : values (s.pieces first) = s.values := by
    simp [LocatedSection.pieces, LocatedSection.values, values_flatMap]
    rfl
  cases ss with
  | nil => rfl
  | cons s ss => simp [Document.sectionPieces, hsection, values_flatMap]

theorem values_document {d : Document} (h : entriesFit .entry d.entries) : (values d.pieces).Perm d.root.scalars := by
  have hsections : d.locatedSections.Perm (locatedSections [] [] d.entries) := by
    conv => rhs; rw [← settleLocated_snd 0 (locatedSections [] [] d.entries)]
    exact (List.perm_insertionSort _ _).map _
  have hentries := values_entries h [] [] []
  have hroot : under [] (entryScalars d.entries) = d.root.scalars := by simp [under, Document.root, Node.scalars]
  have hpieces : values d.pieces = (locatedAssignments [] [] d.entries).flatMap (fun a => values a.pieces) ++
      d.locatedSections.flatMap LocatedSection.values := by
    rw [Document.pieces, values_append, values_append, values_flatMap, values_sectionPieces, values_trivia, values_nil,
      List.append_nil]
  rw [hpieces, ← hroot]
  exact (List.Perm.append_left _ (hsections.flatMap_right _)).trans hentries

/-- A scalar is printed once, and nothing else is printed with its path. -/
theorem textsAt_document {t : Text} {d : Document} (h : Document.read t = .ok d) (path : List Step) :
    textsAt path (values d.pieces) = (d.root.textAt? path).toList := by
  have hperm : (textsAt path (values d.pieces)).Perm (textsAt path d.root.scalars) :=
    (values_document (fits_read h)).filterMap _
  have hdistinct : d.root.Distinct := distinct_read h
  rw [textsAt_scalars hdistinct] at hperm
  cases htext : d.root.textAt? path with
  | none =>
    rw [htext] at hperm
    exact hperm.eq_nil
  | some text =>
    rw [htext] at hperm
    exact List.perm_singleton.mp hperm

end Values

end WorkspaceRelease.Toml

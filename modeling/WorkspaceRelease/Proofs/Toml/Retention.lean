import Mathlib.Data.List.Flatten
import Mathlib.Data.List.Infix
import WorkspaceRelease.Proofs.Toml.Comments

/-!
Documents that keep the comments of other documents, in their order. The comments that may be lost are those within
values at some places; entries that are new may stand between the others.
-/

namespace WorkspaceRelease.Toml

section Lists

variable {α β γ δ : Type}

/-- The second list is the first with items changed, and with new items between them. -/
inductive Grown (R : α → β → Prop) (new : β → Prop) : List α → List β → Prop
  | nil : Grown R new [] []
  | cons {a : α} {b : β} {as : List α} {bs : List β} : R a b → Grown R new as bs → Grown R new (a :: as) (b :: bs)
  | insert {b : β} {as : List α} {bs : List β} : new b → Grown R new as bs → Grown R new as (b :: bs)

namespace Grown

variable {R : α → β → Prop} {new : β → Prop} {S : γ → δ → Prop} {newer : δ → Prop}

theorem append {as cs : List α} {bs ds : List β} (h : Grown R new as bs) (h' : Grown R new cs ds) :
    Grown R new (as ++ cs) (bs ++ ds) := by
  induction h with
  | nil => exact h'
  | cons hab _ ih => exact .cons hab ih
  | insert hb _ ih => exact .insert hb ih

theorem refl {R : α → α → Prop} {new : α → Prop} (h : ∀ a, R a a) (as : List α) : Grown R new as as := by
  induction as with
  | nil => exact .nil
  | cons a as ih => exact .cons (h a) ih

theorem ofNew {bs : List β} (h : ∀ b ∈ bs, new b) : Grown R new [] bs := by
  induction bs with
  | nil => exact .nil
  | cons b bs ih => exact .insert (h b (List.mem_cons_self ..)) (ih fun c hc => h c (List.mem_cons_of_mem _ hc))

theorem map {as : List α} {f : α → β} (h : ∀ a ∈ as, R a (f a)) : Grown R new as (as.map f) := by
  induction as with
  | nil => exact .nil
  | cons a as ih => exact .cons (h a (List.mem_cons_self ..)) (ih fun c hc => h c (List.mem_cons_of_mem _ hc))

theorem flatMap {as : List α} {bs : List β} {f : α → List γ} {g : β → List δ} (h : Grown R new as bs)
    (hchanged : ∀ a b, R a b → Grown S newer (f a) (g b)) (hnew : ∀ b, new b → Grown S newer [] (g b)) :
    Grown S newer (as.flatMap f) (bs.flatMap g) := by
  induction h with
  | nil => exact .nil
  | cons hab _ ih =>
    rw [List.flatMap_cons, List.flatMap_cons]
    exact (hchanged _ _ hab).append ih
  | insert hb _ ih =>
    rw [List.flatMap_cons]
    exact (hnew _ hb).append ih

theorem isEmpty {as : List α} {bs : List β} (h : Grown R new as bs) (has : as.isEmpty = false) :
    bs.isEmpty = false := by
  induction h with
  | nil => exact has
  | cons | insert => rfl

theorem exists_sublist {as : List α} {bs : List β} (h : Grown R new as bs) :
    ∃ cs, List.Forall₂ R as cs ∧ cs.Sublist bs := by
  induction h with
  | nil => exact ⟨[], .nil, .slnil⟩
  | cons hab _ ih =>
    obtain ⟨cs, hcs, hsub⟩ := ih
    exact ⟨_ :: cs, .cons hab hcs, hsub.cons_cons _⟩
  | insert _ _ ih =>
    obtain ⟨cs, hcs, hsub⟩ := ih
    exact ⟨cs, hcs, hsub.cons _⟩

end Grown

end Lists

section Keeps

variable {keep : List Step → Bool}

/-- The comments that may not be lost are in the second list, in their order. -/
def CommentsKeep (keep : List Step → Bool) (cs ds : List Comment) : Prop :=
  (cs.filter fun c => keep c.within).Sublist ds

/-- Not within a value at one of the slots. -/
def outside (slot : List Step → Prop) [DecidablePred slot] (within : List Step) : Bool :=
  within.inits.all fun path => !decide (slot path)

theorem outside_eq_false {slot : List Step → Prop} [DecidablePred slot] {path within : List Step} (hpath : slot path)
    (h : path <+: within) : outside slot within = false := by
  rw [outside, List.all_eq_false]
  exact ⟨path, (List.mem_inits path within).mpr h, by simp [hpath]⟩

namespace CommentsKeep

theorem refl (cs : List Comment) : CommentsKeep keep cs cs := List.filter_sublist

theorem ofNew (ds : List Comment) : CommentsKeep keep [] ds := List.nil_sublist ds

theorem append {cs ds as bs : List Comment} (h : CommentsKeep keep cs ds) (h' : CommentsKeep keep as bs) :
    CommentsKeep keep (cs ++ as) (ds ++ bs) := by
  unfold CommentsKeep
  rw [List.filter_append]
  exact List.Sublist.append h h'

theorem flatMap {α β : Type} {R : α → β → Prop} {new : β → Prop} {as : List α} {bs : List β} (h : Grown R new as bs)
    {f : α → List Comment} {g : β → List Comment} (hfg : ∀ a b, R a b → CommentsKeep keep (f a) (g b)) :
    CommentsKeep keep (as.flatMap f) (bs.flatMap g) := by
  induction h with
  | nil => exact .refl _
  | cons hab _ ih =>
    rw [List.flatMap_cons, List.flatMap_cons]
    exact (hfg _ _ hab).append ih
  | insert _ _ ih =>
    rw [List.flatMap_cons]
    exact (ofNew _).append ih

theorem of_inside {loc : List Step} {cs : List Comment} (h : Inside loc cs)
    (hlost : ∀ within, loc <+: within → keep within = false) (ds : List Comment) : CommentsKeep keep cs ds := by
  have hnone : cs.filter (fun c => keep c.within) = [] :=
    List.filter_eq_nil_iff.mpr fun c hc => by simp [hlost c.within (h c hc)]
  unfold CommentsKeep
  rw [hnone]
  exact List.nil_sublist ds

end CommentsKeep

end Keeps

section Nodes

variable (keep : List Step → Bool)

def Located.Keeps (a b : Located) : Prop := CommentsKeep keep a.comments b.comments

def LocatedSection.Keeps (s t : LocatedSection) : Prop := s.place = t.place ∧ CommentsKeep keep s.comments t.comments

def LinesGrown (as bs : List Located) : Prop := Grown (Located.Keeps keep) (fun _ => True) as bs

/-- New sections have no place of their own, so they do not move the sections behind them. -/
def SectionsGrown (ss ts : List LocatedSection) : Prop :=
  Grown (LocatedSection.Keeps keep) (fun t => t.place = none) ss ts

structure Node.Keeps (loc : List Step) (n m : Node) : Prop where
  dotted : m.isInlineDotted = n.isInlineDotted
  value : ∀ within, CommentsKeep keep (n.comments within loc) (m.comments within loc)
  fields : n.isInlineDotted = true → ∀ within path,
    CommentsKeep keep (n.dottedComments within loc path) (m.dottedComments within loc path)
  assignments : ∀ path, LinesGrown keep (n.locatedAssignments loc path) (m.locatedAssignments loc path)
  sections : ∀ kind path, SectionsGrown keep (n.locatedSections kind loc path) (m.locatedSections kind loc path)

structure EntriesKeep (loc : List Step) (es fs : List Entry) : Prop where
  fields : ∀ within path,
    CommentsKeep keep (es.flatMap (fieldComments within loc path)) (fs.flatMap (fieldComments within loc path))
  assignments : ∀ path, LinesGrown keep (locatedAssignments loc path es) (locatedAssignments loc path fs)
  sections : ∀ path, SectionsGrown keep (locatedSections loc path es) (locatedSections loc path fs)

/-- New entries have no sections, so that none of those behind them moves. -/
def EntriesGrown (loc : List Step) (es fs : List Entry) : Prop :=
  Grown (fun e f => e.1 = f.1 ∧ e.2.Keeps keep (loc ++ [.key e.1.name]) f.2)
    (fun f => ∀ kind loc path, f.2.locatedSections kind loc path = []) es fs

variable {keep} {loc : List Step}

theorem Node.Keeps.refl (n : Node) : n.Keeps keep loc n where
  dotted := rfl
  value _ := .refl _
  fields _ _ _ := .refl _
  assignments _ := .refl (fun _ => .refl _) _
  sections _ _ := .refl (fun _ => ⟨rfl, .refl _⟩) _

theorem EntriesGrown.refl (es : List Entry) : EntriesGrown keep loc es es :=
  Grown.refl (fun _ => ⟨rfl, .refl _⟩) es

theorem EntriesKeep.of_grown {es fs : List Entry} (h : EntriesGrown keep loc es fs) : EntriesKeep keep loc es fs where
  fields within path := by
    refine CommentsKeep.flatMap h ?_
    rintro ⟨k, n⟩ ⟨_, m⟩ ⟨rfl, hnm⟩
    unfold fieldComments
    rw [hnm.dotted]
    split
    next hdotted => exact hnm.fields hdotted _ _
    next => exact (CommentsKeep.refl _).append (hnm.value _)
  assignments path := by
    rw [locatedAssignments_eq_flatMap, locatedAssignments_eq_flatMap]
    refine Grown.flatMap h ?_ fun _ _ => .ofNew fun _ _ => trivial
    rintro ⟨k, n⟩ ⟨_, m⟩ ⟨rfl, hnm⟩
    exact hnm.assignments _
  sections path := by
    rw [locatedSections_eq_flatMap, locatedSections_eq_flatMap]
    refine Grown.flatMap h ?_ fun f hf => ?_
    · rintro ⟨k, n⟩ ⟨_, m⟩ ⟨rfl, hnm⟩
      exact hnm.sections _ _
    · rw [hf]
      exact .nil

theorem located_keeps {path : List Key} {n m : Node} (h : CommentsKeep keep (n.comments [] loc) (m.comments [] loc)) :
    Located.Keeps keep ⟨loc, path, n⟩ ⟨loc, path, m⟩ := by
  unfold Located.Keeps
  rw [Located.comments_eq, Located.comments_eq]
  exact (CommentsKeep.refl _).append h

theorem dottedComments_keep {es fs : List Entry} {within : List Step} {path : List Key} (form : TableForm)
    (h : CommentsKeep keep (es.flatMap (fieldComments within loc path)) (fs.flatMap (fieldComments within loc path))) :
    CommentsKeep keep ((Node.table form es).dottedComments within loc path)
      ((Node.table form fs).dottedComments within loc path) := by
  rw [dottedComments_table, dottedComments_table]
  exact h

/-- Between braces only the order of the comments counts: fields may hand them on to the next one. -/
theorem Node.Keeps.braces {form : TableForm} {es fs : List Entry}
    (hform : form = .inlineDotted ∨ ∃ preamble pad, form = .inline preamble pad)
    (h : ∀ within path,
      CommentsKeep keep (es.flatMap (fieldComments within loc path)) (fs.flatMap (fieldComments within loc path))) :
    (Node.table form es).Keeps keep loc (.table form fs) := by
  obtain rfl | ⟨preamble, pad, rfl⟩ := hform
  · have hfields (within : List Step) (path : List Key) := dottedComments_keep .inlineDotted (h within path)
    exact ⟨rfl, fun _ => .refl _, fun _ => hfields, fun _ => .nil, fun _ _ => .nil⟩
  · have hvalue (within : List Step) : CommentsKeep keep ((Node.table (.inline preamble pad) es).comments within loc)
        ((Node.table (.inline preamble pad) fs).comments within loc) := by
      rw [comments_inline, comments_inline]
      exact ((CommentsKeep.refl _).append ((CommentsKeep.refl _).append (h loc []))).append (.refl _)
    have hfields (within : List Step) (path : List Key) := dottedComments_keep (.inline preamble pad) (h within path)
    exact ⟨rfl, hvalue, fun _ => hfields, fun _ => .cons (located_keeps (hvalue [])) .nil, fun _ _ => .nil⟩

theorem section_keeps {place : Option Nat} {kind : HeaderKind} {path : List Key} {pad : Padding} {as bs : List Located}
    (h : LinesGrown keep as bs) : LocatedSection.Keeps keep ⟨place, kind, path, pad, as⟩ ⟨place, kind, path, pad, bs⟩ :=
  ⟨rfl, (CommentsKeep.refl _).append (.flatMap h fun _ _ hab => hab)⟩

theorem Node.Keeps.table {es fs : List Entry} (h : EntriesKeep keep loc es fs) (form : TableForm) :
    (Node.table form es).Keeps keep loc (.table form fs) := by
  have hfields (within : List Step) (path : List Key) := dottedComments_keep form (h.fields within path)
  cases form with
  | inline preamble pad => exact .braces (.inr ⟨preamble, pad, rfl⟩) h.fields
  | inlineDotted => exact .braces (.inl rfl) h.fields
  | dotted => exact ⟨rfl, fun _ => .refl _, fun _ => hfields, h.assignments, fun _ => h.sections⟩
  | headed place pad =>
    have hsections (kind : HeaderKind) (path : List Key) : SectionsGrown keep
        ((Node.table (.headed place pad) es).locatedSections kind loc path)
        ((Node.table (.headed place pad) fs).locatedSections kind loc path) :=
      .cons (section_keeps (h.assignments [])) (h.sections path)
    exact ⟨rfl, fun _ => .refl _, fun _ => hfields, fun _ => .nil, hsections⟩
  | implicit =>
    have hsections (kind : HeaderKind) (path : List Key) : SectionsGrown keep
        ((Node.table .implicit es).locatedSections kind loc path)
        ((Node.table .implicit fs).locatedSections kind loc path) := by
      have hbody := h.assignments []
      rw [Node.locatedSections, Node.locatedSections]
      cases hes : (Toml.locatedAssignments loc [] es).isEmpty with
      | false =>
        simp only [hbody.isEmpty hes, Bool.false_eq_true, ↓reduceIte]
        exact .cons (section_keeps hbody) (h.sections path)
      | true =>
        -- A first value makes a section of its own.
        cases hfs : (Toml.locatedAssignments loc [] fs).isEmpty with
        | false =>
          simp only [Bool.false_eq_true, ↓reduceIte]
          exact .insert rfl (h.sections path)
        | true =>
          simp only [↓reduceIte]
          exact h.sections path
    exact ⟨rfl, fun _ => .refl _, fun _ => hfields, fun _ => .nil, hsections⟩

/-- Values as opposed to tables written by keys and headers. -/
def Node.isValue : Node → Bool
  | .scalar _ _ _ => true
  | .array _ _ _ _ => true
  | .table (.inline _ _) _ => true
  | _ => false

theorem Node.comments_value {n : Node} (h : n.isValue) (within loc : List Step) :
    ∃ cs, Inside loc cs ∧ n.comments within loc = n.pad.leading within ++ cs ++ n.pad.trailing within := by
  cases n with
  | scalar data written pad =>
    have hnone : Inside loc [] := fun _ hc => nomatch hc
    exact ⟨[], hnone, by rw [comments_scalar, List.append_nil]; rfl⟩
  | array items comma trailing pad =>
    have hself : loc <+: loc := List.prefix_rfl
    exact ⟨_, (inside_items hself 0 .none items).append (inside_commentsIn hself _), comments_array ..⟩
  | table form es =>
    cases form with
    | inline preamble pad =>
      have hself : loc <+: loc := List.prefix_rfl
      exact ⟨_, (inside_commentsIn hself _).append (inside_fields hself hself [] es), comments_inline ..⟩
    | inlineDotted | dotted | implicit | headed => exact nomatch h
  | tables => exact nomatch h

theorem Node.Keeps.replace {n : Node} (h : n.isValue) (hlost : ∀ within, loc <+: within → keep within = false)
    (data : Scalar) (written : Text) : n.Keeps keep loc (.scalar data written n.pad) := by
  have hvalue (within : List Step) :
      CommentsKeep keep (n.comments within loc) ((Node.scalar data written n.pad).comments within loc) := by
    obtain ⟨cs, hcs, heq⟩ := n.comments_value h within loc
    have hpad : n.pad.leading within ++ n.pad.trailing within =
        n.pad.leading within ++ [] ++ n.pad.trailing within := by rw [List.append_nil]
    rw [comments_scalar, heq, hpad]
    exact ((CommentsKeep.refl _).append (.of_inside hcs hlost [])).append (.refl _)
  have hlines (path : List Key) : n.locatedAssignments loc path = [⟨loc, path, n⟩] ∧ n.isInlineDotted = false ∧
      ∀ kind, n.locatedSections kind loc path = [] := by
    match n, h with
    | .scalar _ _ _, _ | .array _ _ _ _, _ | .table (.inline _ _) _, _ => exact ⟨rfl, rfl, fun _ => rfl⟩
  refine ⟨(hlines []).2.1.symm, hvalue, ?_, fun path => ?_, fun kind path => ?_⟩
  · intro hdotted
    rw [(hlines []).2.1] at hdotted
    contradiction
  · rw [(hlines path).1]
    exact .cons (located_keeps (hvalue [])) .nil
  · rw [(hlines path).2.2]
    exact .nil

end Nodes

section Documents

variable {keep : List Step → Bool}

def PlacedKeeps (keep : List Step → Bool) (x y : Nat × LocatedSection) : Prop :=
  x.1 = y.1 ∧ LocatedSection.Keeps keep x.2 y.2

theorem grown_settleLocated {ss ts : List LocatedSection} (h : SectionsGrown keep ss ts) (place : Nat) :
    Grown (PlacedKeeps keep) (fun _ => True) (settleLocated place ss) (settleLocated place ts) := by
  induction h generalizing place with
  | nil => exact .nil
  | cons hst _ ih =>
    rw [settleLocated, settleLocated, ← hst.1]
    exact .cons ⟨rfl, hst⟩ (ih _)
  | insert ht _ ih =>
    rw [settleLocated, ht]
    exact .insert trivial (ih place)

abbrev earlier (x y : Nat × LocatedSection) : Prop := x.1 ≤ y.1

theorem forall₂_insertionSort {xs ys : List (Nat × LocatedSection)} (h : List.Forall₂ (PlacedKeeps keep) xs ys) :
    List.Forall₂ (PlacedKeeps keep) (xs.insertionSort earlier) (ys.insertionSort earlier) := by
  have hinsert {x y : Nat × LocatedSection} (hxy : PlacedKeeps keep x y) {xs ys : List (Nat × LocatedSection)}
      (h : List.Forall₂ (PlacedKeeps keep) xs ys) :
      List.Forall₂ (PlacedKeeps keep) (xs.orderedInsert earlier x) (ys.orderedInsert earlier y) := by
    induction h with
    | nil => exact .cons hxy .nil
    | @cons z w zs ws hzw hrest ih =>
      have hsame : earlier x z ↔ earlier y w := by rw [earlier, earlier, hxy.1, hzw.1]
      by_cases hxz : earlier x z
      · rw [List.orderedInsert_cons_of_le _ _ hxz, List.orderedInsert_cons_of_le _ _ (hsame.mp hxz)]
        exact .cons hxy (.cons hzw hrest)
      · rw [List.orderedInsert_of_not_le _ _ hxz, List.orderedInsert_of_not_le _ _ (mt hsame.mpr hxz)]
        exact .cons hzw ih
  induction h with
  | nil => exact .nil
  | cons hxy _ ih => exact hinsert hxy ih

theorem insertionSort_sublist {xs ys : List (Nat × LocatedSection)} (h : xs.Sublist ys) :
    (xs.insertionSort earlier).Sublist (ys.insertionSort earlier) := by
  have htotal : Std.Total earlier := ⟨fun x y => Nat.le_total x.1 y.1⟩
  have htrans : IsTrans _ earlier := ⟨fun _ _ _ => Nat.le_trans⟩
  induction h with
  | slnil => exact .slnil
  | cons y _ ih => exact ih.trans (List.sublist_orderedInsert _ _)
  | @cons_cons xs ys x _ ih => exact List.Sublist.orderedInsert_sublist x ih (List.pairwise_insertionSort earlier ys)

theorem keeps_sorted {ss ts : List LocatedSection} (h : SectionsGrown keep ss ts) (place : Nat) :
    CommentsKeep keep ((((settleLocated place ss).insertionSort earlier).map (·.2)).flatMap LocatedSection.comments)
      ((((settleLocated place ts).insertionSort earlier).map (·.2)).flatMap LocatedSection.comments) := by
  -- Sorting is not monotone in `Grown` step by step, so the new sections are left out first and come in as a sublist.
  obtain ⟨us, hchanged, hsub⟩ := (grown_settleLocated h place).exists_sublist
  have hsorted := forall₂_insertionSort hchanged
  have hkept {xs ys : List (Nat × LocatedSection)} (h : List.Forall₂ (PlacedKeeps keep) xs ys) :
      CommentsKeep keep ((xs.map (·.2)).flatMap LocatedSection.comments)
        ((ys.map (·.2)).flatMap LocatedSection.comments) := by
    induction h with
    | nil => exact .refl _
    | cons hxy _ ih => exact CommentsKeep.append hxy.2.2 ih
  exact (hkept hsorted).trans (((insertionSort_sublist hsub).map _).flatMap _)

theorem keeps_document {d e : Document} (h : EntriesKeep keep [] d.entries e.entries)
    (htrailing : e.trailing = d.trailing) : CommentsKeep keep (comments d.pieces) (comments e.pieces) := by
  rw [comments_document, comments_document, htrailing]
  have hbody : CommentsKeep keep ((locatedAssignments [] [] d.entries).flatMap Located.comments)
      ((locatedAssignments [] [] e.entries).flatMap Located.comments) :=
    .flatMap (h.assignments []) fun _ _ hab => hab
  exact (hbody.append (keeps_sorted (h.sections []) 0)).append (.refl _)

end Documents

end WorkspaceRelease.Toml

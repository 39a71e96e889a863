import WorkspaceRelease.Proofs.Except
import WorkspaceRelease.Proofs.Toml.Distinct

/-!
What reading builds: a value, then a statement, then a document. A property of values and of entries that each
step of the building keeps holds of what was read.
-/

namespace WorkspaceRelease.Toml

section Trivia

/-- Text that is trivia from one end to the other. -/
def IsTrivia (t : Text) : Prop := trivia false t = (t, [])

instance (t : Text) : Decidable (IsTrivia t) := inferInstanceAs (Decidable (_ = _))

theorem trivia_newline (inComment : Bool) (s : Text) :
    trivia inComment ('\n' :: s) = ('\n' :: (trivia false s).1, (trivia false s).2) := rfl

theorem trivia_comment {c : Char} (h : isPrintable c = true) (s : Text) :
    trivia true (c :: s) = (c :: (trivia true s).1, (trivia true s).2) := by
  have hline : c ≠ '\n' := by
    rintro rfl
    exact absurd h (by decide)
  have hreturn : c ≠ '\r' := by
    rintro rfl
    exact absurd h (by decide)
  simp [trivia, hline, hreturn, h]

theorem trivia_blank {c : Char} (h : (isSpace c || c = '#') = true) (s : Text) :
    trivia false (c :: s) = (c :: (trivia (c = '#') s).1, (trivia (c = '#') s).2) := by
  have hline : c ≠ '\n' := by
    rintro rfl
    exact absurd h (by decide)
  have hreturn : c ≠ '\r' := by
    rintro rfl
    exact absurd h (by decide)
  simp [trivia, hline, hreturn, h]

theorem trivia_trivia (inComment : Bool) (s : Text) :
    trivia inComment (trivia inComment s).1 = ((trivia inComment s).1, []) := by
  fun_induction trivia inComment s with
  | case1 | case5 | case7 => rfl
  | case2 inComment s t rest hread ih =>
    rw [hread] at ih
    rw [trivia_newline, ih]
  | case3 inComment c s hline hreturn ih =>
    -- A line feed ends a comment, so the reader's state before it does not matter.
    simp only [Bool.and_eq_true, decide_eq_true_eq, List.head?_eq_some_iff] at hreturn
    obtain ⟨-, s, rfl⟩ := hreturn
    rw [trivia_newline] at ih ⊢
    exact ih
  | case4 c s hline hreturn hprintable t rest hread ih =>
    rw [hread] at ih
    rw [trivia_comment hprintable, ih]
  | case6 inComment c s hline hreturn hcomment hblank t rest hread ih =>
    obtain rfl : inComment = false := by simpa using hcomment
    rw [hread] at ih
    rw [trivia_blank hblank, ih]

theorem isTrivia_trivia (s : Text) : IsTrivia (trivia false s).1 := trivia_trivia false s

end Trivia

/-- A property that reading keeps: of values, of the fields between braces, and of the entries of other tables. -/
structure ReadInvariant where
  value : Node → Prop
  fields : List Entry → Prop
  entries : List Entry → Prop
  scalar (data : Scalar) (written : Text) (pad : Padding) : value (.scalar data written pad)
  array {items : List Node} : (∀ n ∈ items, value n) → ∀ comma trailing pad, value (.array items comma trailing pad)
  inline {es : List Entry} : fields es → ∀ preamble pad, value (.table (.inline preamble pad) es)
  withPad {n : Node} : value n → ∀ pad, value (n.withPad pad)
  noFields : fields []
  noEntries : entries []
  field {path : List Key} {n : Node} {before after : Text} {es fs : List Entry} : value n → IsTrivia after →
    fields es → assign? .inlineDotted path (n.withPad ⟨some before, some after⟩) es = some fs → fields fs
  assign {path : List Key} {n : Node} {es fs : List Entry} : value n → entries es →
    assign? .dotted path n es = some fs → entries fs
  openSection {place : Nat} {s : Section} {es fs : List Entry} : (∀ a ∈ s.body, value a.value) → entries es →
    openSection? place s s.path es = some fs → entries fs

namespace ReadInvariant

variable (I : ReadInvariant) {item : Text → Except Fault (Node × Text)}

theorem of_scalar {s rest : Text} {n : Node} (h : Toml.scalar s = .ok (n, rest)) : I.value n := by
  unfold Toml.scalar at h
  split at h
  · obtain ⟨rfl, -⟩ := Prod.mk.inj (Except.ok.inj h)
    exact I.scalar _ _ _
  · dsimp only at h
    split at h
    · obtain ⟨rfl, -⟩ := Prod.mk.inj (Except.ok.inj h)
      exact I.scalar _ _ _
    · simp at h

theorem of_readItems (hitem : ∀ s n rest, item s = .ok (n, rest) → I.value n) {fuel : Nat} {comma : Bool}
    {s rest : Text} {r : Items} (h : readItems item fuel comma s = .ok (r, rest)) : ∀ n ∈ r.items, I.value n := by
  induction fuel generalizing comma s r rest with
  | zero => simp [readItems] at h
  | succ fuel ih =>
    unfold readItems at h
    dsimp only at h
    split at h
    · obtain ⟨rfl, -⟩ := Prod.mk.inj (Except.ok.inj h)
      simp
    · obtain ⟨⟨n, s'⟩, hn, h⟩ := bind_eq_ok.mp h
      have hvalue := fun pad => I.withPad (hitem _ n _ hn) pad
      dsimp only at h
      split at h
      · obtain ⟨⟨more, s''⟩, hmore, h⟩ := bind_eq_ok.mp h
        obtain ⟨rfl, -⟩ := Prod.mk.inj (Except.ok.inj h)
        exact List.forall_mem_cons.mpr ⟨hvalue _, ih hmore⟩
      · obtain ⟨rfl, -⟩ := Prod.mk.inj (Except.ok.inj h)
        exact List.forall_mem_singleton.mpr (hvalue _)
      · simp at h

theorem of_readFields (hitem : ∀ s n rest, item s = .ok (n, rest) → I.value n) {fuel : Nat} {es : List Entry}
    {s rest : Text} {r : Fields} (hes : I.fields es) (h : readFields item fuel es s = .ok (r, rest)) :
    I.fields r.entries := by
  induction fuel generalizing es s r rest with
  | zero => simp [readFields] at h
  | succ fuel ih =>
    unfold readFields at h
    dsimp only at h
    split at h
    · obtain ⟨rfl, -⟩ := Prod.mk.inj (Except.ok.inj h)
      exact hes
    · obtain ⟨⟨segments, s'⟩, -, h⟩ := bind_eq_ok.mp h
      dsimp only at h
      split at h
      · obtain ⟨⟨n, s''⟩, hn, h⟩ := bind_eq_ok.mp h
        have hvalue := hitem _ n _ hn
        dsimp only at h
        split at h
        next fs _ hfs _ => exact ih (I.field hvalue (isTrivia_trivia _) hes hfs) h
        next fs _ hfs _ =>
          obtain ⟨rfl, -⟩ := Prod.mk.inj (Except.ok.inj h)
          exact I.field hvalue (isTrivia_trivia _) hes hfs
        · simp at h
      · simp at h

theorem of_readValue (depth : Nat) {s rest : Text} {n : Node} (h : readValue depth s = .ok (n, rest)) :
    I.value n := by
  induction depth generalizing s n rest with
  | zero => exact I.of_scalar h
  | succ depth ih =>
    unfold readValue at h
    split at h
    next heq =>
      obtain rfl := Nat.succ.inj heq
      obtain ⟨⟨r, s'⟩, hr, h⟩ := bind_eq_ok.mp h
      obtain ⟨rfl, -⟩ := Prod.mk.inj (Except.ok.inj h)
      exact I.array (I.of_readItems (fun s n rest => ih) hr) _ _ _
    next heq =>
      obtain rfl := Nat.succ.inj heq
      obtain ⟨⟨r, s'⟩, hr, h⟩ := bind_eq_ok.mp h
      obtain ⟨rfl, -⟩ := Prod.mk.inj (Except.ok.inj h)
      exact I.inline (I.of_readFields (fun s n rest => ih) I.noFields hr) _ _
    · exact I.of_scalar h

def statement : Statement → Prop
  | .header _ _ _ => True
  | .assignment a => I.value a.value

theorem of_readHeader {before s rest : Text} {kind : HeaderKind} {statement : Statement}
    (h : readHeader before kind s = .ok (statement, rest)) : I.statement statement := by
  obtain ⟨⟨segments, s'⟩, -, h⟩ := bind_eq_ok.mp h
  dsimp only at h
  split at h
  · obtain ⟨⟨after, s''⟩, -, h⟩ := bind_eq_ok.mp h
    obtain ⟨rfl, -⟩ := Prod.mk.inj (Except.ok.inj h)
    trivial
  · simp at h

theorem of_readAssignment {before s rest : Text} {statement : Statement}
    (h : readAssignment before s = .ok (statement, rest)) : I.statement statement := by
  obtain ⟨⟨segments, s'⟩, -, h⟩ := bind_eq_ok.mp h
  dsimp only at h
  split at h
  · obtain ⟨⟨n, s''⟩, hn, h⟩ := bind_eq_ok.mp h
    obtain ⟨⟨after, s'''⟩, -, h⟩ := bind_eq_ok.mp h
    obtain ⟨rfl, -⟩ := Prod.mk.inj (Except.ok.inj h)
    exact I.withPad (I.of_readValue _ hn) _
  · simp at h

theorem of_readStatement {before s rest : Text} {statement : Statement}
    (h : readStatement before s = .ok (statement, rest)) : I.statement statement := by
  unfold readStatement at h
  split at h
  · exact I.of_readHeader h
  · exact I.of_readHeader h
  · exact I.of_readAssignment h

theorem of_readStatements (fuel : Nat) (s : Text) :
    ∀ statement ∈ (readStatements fuel s).1, I.statement statement := by
  induction fuel generalizing s with
  | zero => simp [readStatements]
  | succ fuel ih =>
    unfold readStatements
    split
    · simp
    · split
      · simp
      next statement rest hstatement =>
        intro other hother
        rcases List.mem_cons.mp hother with rfl | hother
        · exact I.of_readStatement hstatement
        · exact ih rest other hother

theorem of_sections {statements : List Statement} (h : ∀ s ∈ statements, I.statement s) :
    (∀ a ∈ (sections statements).1, I.value a.value) ∧
      ∀ s ∈ (sections statements).2, ∀ a ∈ s.body, I.value a.value := by
  induction statements with
  | nil => simp [sections]
  | cons s ss ih =>
    obtain ⟨hbody, hrest⟩ := ih fun t ht => h t (List.mem_cons_of_mem _ ht)
    cases s with
    | assignment a =>
      refine ⟨?_, hrest⟩
      intro b hb
      rcases List.mem_cons.mp hb with rfl | hb
      · exact h _ List.mem_cons_self
      · exact hbody b hb
    | header kind path pad =>
      refine ⟨by simp [sections], ?_⟩
      intro t ht
      rcases List.mem_cons.mp ht with rfl | ht
      · exact hbody
      · exact hrest t ht

theorem of_openSections? {place : Nat} {ss : List Section} (hss : ∀ s ∈ ss, ∀ a ∈ s.body, I.value a.value)
    {es fs : List Entry} (h : I.entries es) (hfs : openSections? place ss es = some fs) : I.entries fs := by
  induction ss generalizing place es with
  | nil => exact Option.some.inj hfs ▸ h
  | cons s ss ih =>
    simp only [openSections?, Option.bind_eq_bind, Option.bind_eq_some_iff] at hfs
    obtain ⟨gs, hgs, hfs⟩ := hfs
    exact ih (fun t ht => hss t (List.mem_cons_of_mem _ ht)) (I.openSection (hss s List.mem_cons_self) h hgs) hfs

theorem read {t : Text} {d : Document} (h : Document.read t = .ok d) : I.entries d.entries := by
  unfold Document.read at h
  dsimp only at h
  split at h
  next es trailing hes _ =>
    obtain rfl := Except.ok.inj h
    simp only [Document.entriesOf?, Option.bind_eq_bind, Option.bind_eq_some_iff] at hes
    obtain ⟨body, hbody, hes⟩ := hes
    obtain ⟨hvalues, hsections⟩ := I.of_sections (I.of_readStatements _ _)
    exact I.of_openSections? hsections (assignAll?_keeps (fun _ _ _ _ => I.assign) hvalues I.noEntries hbody) hes
  · split at h <;> simp at h
  · simp at h

end ReadInvariant

theorem Node.Distinct.withPad {n : Node} (h : n.Distinct) (pad : Padding) : (n.withPad pad).Distinct := by
  unfold Node.withPad
  split <;> exact h

def distinctInvariant : ReadInvariant where
  value := Node.Distinct
  fields := distinctEntries
  entries := distinctEntries
  scalar _ _ _ := trivial
  array hitems _ _ _ := distinctItems_iff.mpr hitems
  inline hes _ _ := hes
  withPad := Node.Distinct.withPad
  noFields := trivial
  noEntries := trivial
  field hn _ hes hfs := growth_distinct.assign? (fun _ => id) _ (hn.withPad _) hes hfs
  assign hn hes hfs := growth_distinct.assign? (fun _ => id) _ hn hes hfs
  openSection {_ s _ _} hs hes hfs := growth_distinct.openSection? hs s.path hes hfs

theorem distinct_read {t : Text} {d : Document} (h : Document.read t = .ok d) : distinctEntries d.entries :=
  distinctInvariant.read h

end WorkspaceRelease.Toml

import WorkspaceRelease.Proofs.Toml.Closing
import WorkspaceRelease.Proofs.Toml.Values

/-!
Every value of a document stands in its text.
-/

namespace WorkspaceRelease.Toml

section Braces

variable {n m : Node} {k : Key} {es : List Entry}

theorem infix_render (h : n.isValue = true) (margin : Margin) : n.text <:+: n.render margin := by
  rw [Node.render_eq h]
  exact List.infix_append _ _ _

theorem infix_braces {t : Text} (h : t ∈ renderFields [] true es) (preamble : Text) (pad : Padding) :
    t <:+: (Node.table (.inline preamble pad) es).text := by
  have hfields := infix_joinWith [','] h
  rw [text_braces]
  exact hfields.trans (List.infix_append ('\x7b' :: preamble) _ _)

/-- The fields of one entry are among those of all. -/
theorem exists_renderFields_mem {e : Entry} (h : e ∈ es) (path : List Key) (last : Bool) :
    ∃ last', ∀ t ∈ renderFields path last' [e], t ∈ renderFields path last es := by
  obtain ⟨before, after, rfl⟩ := List.append_of_mem h
  refine ⟨last && after.isEmpty, fun t ht => ?_⟩
  have hafter := renderFields_append path last [e] after
  rw [List.singleton_append] at hafter
  rw [renderFields_append, hafter]
  exact List.mem_append_right _ (List.mem_append_left _ ht)

theorem exists_value_field (h : (k, n) ∈ es) (hvalue : n.isValue = true) (path : List Key) (last : Bool) :
    ∃ t ∈ renderFields path last es, n.text <:+: t := by
  obtain ⟨last', hmem⟩ := exists_renderFields_mem h path last
  have hdotted := Node.isInlineDotted_of_isValue hvalue
  obtain ⟨margin, hfield⟩ : ∃ margin, renderFields path last' [(k, n)] =
      [Key.renderPath Margin.inlineKey (path ++ [k]) ++ '=' :: n.render margin] := by
    simp only [renderFields, hdotted, Bool.false_eq_true, ↓reduceIte, List.append_nil]
    exact ⟨_, rfl⟩
  refine ⟨_, hmem _ (by rw [hfield]; exact List.mem_singleton_self _), (infix_render hvalue margin).trans ?_⟩
  exact ((List.suffix_cons _ _).trans (List.suffix_append _ _)).isInfix

theorem exists_dotted_field {fs : List Entry} (h : (k, .table .inlineDotted fs) ∈ es) (path : List Key) (last : Bool) :
    ∃ last', ∀ t ∈ renderFields (path ++ [k]) last' fs, t ∈ renderFields path last es := by
  obtain ⟨last', hmem⟩ := exists_renderFields_mem h path last
  refine ⟨last', fun t ht => hmem t ?_⟩
  simpa [renderFields, Node.isInlineDotted, Node.renderDottedFields] using ht

theorem exists_field_infix (names : List Text) (hes : entriesFit .field es) {name : Text}
    (hn : Entries.find? name es = some n) (hm : n.at? (names.map .key) = some m) (hvalue : m.isValue = true)
    (path : List Key) (last : Bool) : ∃ t ∈ renderFields path last es, m.text <:+: t := by
  induction names generalizing es name n path last with
  | nil =>
    obtain rfl : n = m := Option.some.inj hm
    obtain ⟨k, hmem, -⟩ := Entries.find?_mem hn
    exact exists_value_field hmem hvalue path last
  | cons next names ih =>
    have hfits := entriesFit_find? hes hn
    obtain ⟨k, hmem, -⟩ := Entries.find?_mem hn
    rw [List.map_cons, Node.at?_key_cons, Option.bind_eq_some_iff] at hm
    obtain ⟨inner, hinner, hm⟩ := hm
    cases n with
    | scalar | array | tables => simp [Node.get?, Node.entries?] at hinner
    | table form fs =>
      cases form with
      | dotted | implicit | headed => simp [Node.Fits] at hfits
      | inlineDotted =>
        obtain ⟨last', hfields⟩ := exists_dotted_field hmem path last
        obtain ⟨t, ht, htext⟩ := ih hfits.2 hinner hm (path ++ [k]) last'
        exact ⟨t, hfields t ht, htext⟩
      | inline preamble pad =>
        obtain ⟨t, ht, htext⟩ := ih hfits.2 hinner hm [] true
        obtain ⟨s, hs, hbraces⟩ := exists_value_field hmem rfl path last
        exact ⟨s, hs, (htext.trans (infix_braces ht preamble pad)).trans hbraces⟩

theorem infix_text (h : n.Fits .value) {names : List Text} (hm : n.at? (names.map .key) = some m)
    (hvalue : m.isValue = true) : m.text <:+: n.text := by
  cases names with
  | nil => exact Option.some.inj hm ▸ List.infix_rfl
  | cons name names =>
    rw [List.map_cons, Node.at?_key_cons, Option.bind_eq_some_iff] at hm
    obtain ⟨inner, hinner, hm⟩ := hm
    cases n with
    | scalar | array | tables => simp [Node.get?, Node.entries?] at hinner
    | table form es =>
      cases form with
      | inlineDotted | dotted | implicit | headed => simp [Node.Fits] at h
      | inline preamble pad =>
        obtain ⟨t, ht, htext⟩ := exists_field_infix names h.2 hinner hm hvalue [] true
        exact htext.trans (infix_braces ht preamble pad)

end Braces

section Documents

variable {n m : Node} {k : Key} {es : List Entry}

theorem mem_assignments {a : Assignment} (h : (k, n) ∈ es) (path : List Key) (ha : a ∈ n.assignments (path ++ [k])) :
    a ∈ assignments path es := by
  induction es with
  | nil => simp at h
  | cons e es ih =>
    rw [assignments]
    rcases List.mem_cons.mp h with rfl | h
    · exact List.mem_append_left _ ha
    · exact List.mem_append_right _ (ih h)

theorem mem_placedSections {s : PlacedSection} (h : (k, n) ∈ es) (path : List Key)
    (hs : s ∈ n.placedSections .table (path ++ [k])) : s ∈ placedSections path es := by
  induction es with
  | nil => simp at h
  | cons e es ih =>
    rw [placedSections]
    rcases List.mem_cons.mp h with rfl | h
    · exact List.mem_append_left _ hs
    · exact List.mem_append_right _ (ih h)

theorem Node.Fits.value {site : Site} (h : n.Fits site) (hvalue : n.isValue = true) : n.Fits .value := by
  cases n with
  | scalar => exact Site.noConfusion
  | array => exact ⟨Site.noConfusion, h.2⟩
  | table form es =>
    cases form with
    | inline => exact ⟨Site.noConfusion, h.2⟩
    | inlineDotted | dotted | implicit | headed => simp [Node.isValue] at hvalue
  | tables => simp [Node.isValue] at hvalue

theorem exists_value_assignment (h : (k, n) ∈ es) (hvalue : n.isValue = true) (path : List Key) :
    ∃ a ∈ assignments path es, n.text <:+: a.render := by
  refine ⟨⟨path ++ [k], n⟩, mem_assignments h path ?_, (infix_render hvalue Margin.value).trans ?_⟩
  · cases n with
    | scalar | array => exact List.mem_singleton_self _
    | table form es =>
      cases form with
      | inline => exact List.mem_singleton_self _
      | inlineDotted | dotted | implicit | headed => simp [Node.isValue] at hvalue
    | tables => simp [Node.isValue] at hvalue
  · exact (List.suffix_cons _ _).isInfix.trans (List.infix_append _ _ _)

/-- A value below some entries stands in an assignment, or in one of a section. -/
theorem exists_assignment_infix (names : List Text) (hes : entriesFit .entry es) {name : Text}
    (hn : Entries.find? name es = some n) (hm : n.at? (names.map .key) = some m) (hvalue : m.isValue = true) :
    (∀ path, ∃ a ∈ assignments path es, m.text <:+: a.render) ∨
      ∀ path, ∃ s ∈ placedSections path es, ∃ a ∈ s.content.body, m.text <:+: a.render := by
  induction names generalizing es name n with
  | nil =>
    obtain rfl : n = m := Option.some.inj hm
    obtain ⟨k, hmem, -⟩ := Entries.find?_mem hn
    exact .inl (exists_value_assignment hmem hvalue)
  | cons next names ih =>
    have hfits := entriesFit_find? hes hn
    obtain ⟨k, hmem, -⟩ := Entries.find?_mem hn
    have hat := hm
    rw [List.map_cons, Node.at?_key_cons, Option.bind_eq_some_iff] at hm
    obtain ⟨inner, hinner, hm⟩ := hm
    cases n with
    | scalar | array | tables => simp [Node.get?, Node.entries?] at hinner
    | table form fs =>
      cases form with
      | inlineDotted => simp [Node.Fits] at hfits
      | inline preamble pad =>
        have htext : m.text <:+: (Node.table (.inline preamble pad) fs).text :=
          infix_text (hfits.value rfl) hat hvalue
        exact .inl fun path => (exists_value_assignment hmem rfl path).imp fun a h => ⟨h.1, htext.trans h.2⟩
      | dotted =>
        rcases ih hfits.2 hinner hm with h | h
        · refine .inl fun path => ?_
          obtain ⟨a, ha, htext⟩ := h (path ++ [k])
          exact ⟨a, mem_assignments hmem path ha, htext⟩
        · refine .inr fun path => ?_
          obtain ⟨s, hs, hbody⟩ := h (path ++ [k])
          exact ⟨s, mem_placedSections hmem path hs, hbody⟩
      | implicit =>
        refine .inr fun path => ?_
        rcases ih hfits.2 hinner hm with h | h
        · obtain ⟨a, ha, htext⟩ := h []
          have hbody : (assignments [] fs).isEmpty = false := List.isEmpty_eq_false_iff.mpr (List.ne_nil_of_mem ha)
          refine ⟨⟨none, ⟨.table, path ++ [k], {}, assignments [] fs⟩⟩, mem_placedSections hmem path ?_, a, ha, htext⟩
          simp [Node.placedSections, hbody]
        · obtain ⟨s, hs, hbody⟩ := h (path ++ [k])
          refine ⟨s, mem_placedSections hmem path ?_, hbody⟩
          simp only [Node.placedSections]
          split
          · exact hs
          · exact List.mem_cons_of_mem _ hs
      | headed place pad =>
        refine .inr fun path => ?_
        rcases ih hfits.2 hinner hm with h | h
        · exact ⟨_, mem_placedSections hmem path List.mem_cons_self, h []⟩
        · obtain ⟨s, hs, hbody⟩ := h (path ++ [k])
          exact ⟨s, mem_placedSections hmem path (List.mem_cons_of_mem _ hs), hbody⟩

theorem mem_settle {s : PlacedSection} {ss : List PlacedSection} (h : s ∈ ss) (place : Nat) :
    ∃ p, (p, s.content) ∈ settle place ss := by
  induction ss generalizing place with
  | nil => simp at h
  | cons t ss ih =>
    rw [settle]
    rcases List.mem_cons.mp h with rfl | h
    · exact ⟨_, List.mem_cons_self⟩
    · exact (ih h _).imp fun _ => List.mem_cons_of_mem _

theorem infix_of_mem_statements {d : Document} {s : Statement} (h : s ∈ d.statements) : s.render <:+: d.render := by
  obtain ⟨before, after, hstatements⟩ := List.append_of_mem h
  rw [Document.render, hstatements, List.flatMap_append, List.flatMap_cons, ← List.append_assoc]
  exact (List.infix_append _ _ _).trans (List.prefix_append _ _).isInfix

theorem mem_statements_of_section {d : Document} {s : PlacedSection} (hs : s ∈ placedSections [] d.entries)
    {a : Assignment} (ha : a ∈ s.content.body) : Statement.assignment a ∈ d.statements := by
  obtain ⟨place, hsettled⟩ := mem_settle hs 0
  have hordered : s.content ∈ (sortByPlace (settle 0 (placedSections [] d.entries))).map (·.2) := by
    rw [sortByPlace_eq_insertionSort]
    exact List.mem_map.mpr ⟨_, (List.mem_insertionSort _).mpr hsettled, rfl⟩
  have hbody (first : Bool) : Statement.assignment a ∈ s.content.statements first :=
    List.mem_cons_of_mem _ (List.mem_map_of_mem ha)
  rw [Document.statements]
  apply List.mem_append_right
  split
  next heq => simp [heq] at hordered
  next t ts heq =>
    rw [heq] at hordered
    rcases List.mem_cons.mp hordered with rfl | hmem
    · exact List.mem_append_left _ (hbody _)
    · exact List.mem_append_right _ (List.mem_flatMap.mpr ⟨_, hmem, hbody _⟩)

theorem infix_document {d : Document} (hd : entriesFit .entry d.entries) {names : List Text}
    (hm : d.root.at? (names.map .key) = some m) (hvalue : m.isValue = true) : m.text <:+: d.render := by
  cases names with
  | nil =>
    obtain rfl : d.root = m := Option.some.inj hm
    simp [Document.root, Node.isValue] at hvalue
  | cons name names =>
    rw [List.map_cons, Node.at?_key_cons, Option.bind_eq_some_iff] at hm
    obtain ⟨n, hn, hm⟩ := hm
    rcases exists_assignment_infix names hd hn hm hvalue with h | h
    · obtain ⟨a, ha, htext⟩ := h []
      have hmem : Statement.assignment a ∈ d.statements := List.mem_append_left _ (List.mem_map_of_mem ha)
      exact htext.trans (infix_of_mem_statements hmem)
    · obtain ⟨s, hs, a, ha, htext⟩ := h []
      exact htext.trans (infix_of_mem_statements (mem_statements_of_section hs ha))

end Documents

end WorkspaceRelease.Toml

import WorkspaceRelease.Proofs.Text
import WorkspaceRelease.Proofs.Toml.Agreement
import WorkspaceRelease.Proofs.Toml.Forms
import WorkspaceRelease.Proofs.Toml.Retention

/-!
The end of a table in braces: its last value, and the trivia between that value and the brace.
-/

namespace WorkspaceRelease.Toml

/-- The text of a value without the padding that it keeps. -/
def Node.text (n : Node) : Text := (n.withPad {}).render Margin.none

section Values

variable {n : Node}

theorem Node.Fits.isValue (h : n.Fits .value) : n.isValue = true := by
  cases n with
  | table form es =>
    cases form with
    | inline => rfl
    | inlineDotted | dotted | implicit | headed => simp [Node.Fits] at h
  | scalar | array => rfl
  | tables => simp [Node.Fits] at h

theorem Node.isValue_of_after {closing : Text} (h : n.pad.after = some closing) : n.isValue = true := by
  match n, h with
  | .scalar _ _ _, _ | .array _ _ _ _, _ | .table (.inline _ _) _, _ => rfl

theorem Node.isInlineDotted_of_isValue (h : n.isValue = true) : n.isInlineDotted = false := by
  match n, h with
  | .scalar _ _ _, _ | .array _ _ _ _, _ | .table (.inline _ _) _, _ => rfl

theorem Node.pad_withPad (h : n.isValue = true) (pad : Padding) : (n.withPad pad).pad = pad := by
  match n, h with
  | .scalar _ _ _, _ | .array _ _ _ _, _ | .table (.inline _ _) _, _ => rfl

theorem Node.text_withPad (n : Node) (pad : Padding) : (n.withPad pad).text = n.text := by
  cases n with
  | table form es => cases form <;> rfl
  | scalar | array | tables => rfl

theorem Node.render_eq (h : n.isValue = true) (margin : Margin) :
    n.render margin = n.pad.before.getD margin.before ++ n.text ++ n.pad.after.getD margin.after := by
  match n, h with
  | .scalar _ _ _, _ | .array _ _ _ _, _ | .table (.inline _ _) _, _ =>
    simp [Node.text, Node.withPad, Node.render, Node.pad, Padding.around, Margin.none]

end Values

theorem text_braces (preamble : Text) (pad : Padding) (es : List Entry) : (Node.table (.inline preamble pad) es).text =
    '\x7b' :: preamble ++ Text.joinWith [','] (renderFields [] true es) ++ ['\x7d'] := by
  simp [Node.text, Node.withPad, Node.render, Padding.around, Margin.none]

mutual

/-- The last value of a table by dotted keys between braces, and any other node itself. -/
def Node.lastValue? : Node → Option Node
  | .table form es =>
    match form with
    | .inlineDotted => Toml.lastValue? es
    | _ => some (.table form es)
  | n => some n

/-- The last value among the fields between braces. -/
def lastValue? : List (Key × Node) → Option Node
  | [] => none
  | (_, n) :: es => if es.isEmpty then n.lastValue? else lastValue? es

end

section Render

variable {v : Node} {closing : Text}

theorem renderFields_append (path : List Key) (last : Bool) (es fs : List Entry) :
    renderFields path last (es ++ fs) = renderFields path (last && fs.isEmpty) es ++ renderFields path last fs := by
  induction es with
  | nil => rfl
  | cons e es ih =>
    have hempty : (last && (es ++ fs).isEmpty) = ((last && fs.isEmpty) && es.isEmpty) := by
      cases es <;> simp
    rw [List.cons_append, renderFields, renderFields, hempty, ih, List.append_assoc]

theorem Node.eq_of_isInlineDotted {n : Node} (h : n.isInlineDotted = true) : ∃ es, n = .table .inlineDotted es := by
  unfold Node.isInlineDotted at h
  split at h
  · exact ⟨_, rfl⟩
  · contradiction

theorem Node.lastValue?_eq_self {n : Node} (h : n.isInlineDotted = false) : n.lastValue? = some n := by
  cases n with
  | table form es =>
    cases form with
    | inlineDotted => simp [Node.isInlineDotted] at h
    | inline | dotted | implicit | headed => rfl
  | scalar | array | tables => rfl

/-- The text of a field up to the end of its value. -/
def fieldLead (path : List Key) (v : Node) : Text :=
  Key.renderPath Margin.inlineKey path ++ '=' :: (v.pad.before.getD Margin.value.before ++ v.text)

theorem renderFields_singleton {n : Node} (hclosing : n.pad.after = some closing) (path : List Key) (k : Key)
    (last : Bool) : renderFields path last [(k, n)] = [fieldLead (path ++ [k]) n ++ closing] := by
  have hvalue := Node.isValue_of_after hclosing
  have hrender := Node.render_eq hvalue
  have hbefore : Margin.lastValue.before = Margin.value.before := rfl
  cases last <;>
    simp [renderFields, Node.isInlineDotted_of_isValue hvalue, fieldLead, hrender, hclosing, hbefore]

mutual

/-- Whether other fields follow does not show where the last value keeps the text behind it. -/
theorem exists_renderFields (hclosing : v.pad.after = some closing) (path : List Key) (es : List Entry)
    (h : lastValue? es = some v) : ∃ front final, v.text <:+ final ∧
      ∀ last, renderFields path last es = front ++ [final ++ closing] := by
  match es with
  | [] => simp [lastValue?] at h
  | [(k, n)] =>
    cases hdotted : n.isInlineDotted with
    | true =>
      obtain ⟨front, final, hfinal, hrender⟩ := n.exists_renderDottedFields hclosing (path ++ [k]) hdotted h
      refine ⟨front, final, hfinal, fun last => ?_⟩
      simp [renderFields, hdotted, hrender]
    | false =>
      obtain rfl : n = v := Option.some.inj ((Node.lastValue?_eq_self hdotted).symm.trans h)
      refine ⟨[], fieldLead (path ++ [k]) n, ?_, renderFields_singleton hclosing path k⟩
      exact ((List.suffix_append _ _).trans (List.suffix_cons _ _)).trans (List.suffix_append _ _)
  | (k, n) :: e :: es =>
    obtain ⟨front, final, hfinal, hrender⟩ := exists_renderFields hclosing path (e :: es) h
    refine ⟨renderFields path false [(k, n)] ++ front, final, hfinal, fun last => ?_⟩
    have happend := renderFields_append path last [(k, n)] (e :: es)
    rw [hrender last, List.isEmpty_cons, Bool.and_false] at happend
    rw [List.append_assoc]
    exact happend

theorem Node.exists_renderDottedFields (hclosing : v.pad.after = some closing) (path : List Key) (n : Node)
    (hdotted : n.isInlineDotted = true) (h : n.lastValue? = some v) : ∃ front final, v.text <:+ final ∧
      ∀ last, n.renderDottedFields path last = front ++ [final ++ closing] := by
  obtain ⟨es, rfl⟩ := n.eq_of_isInlineDotted hdotted
  exact exists_renderFields hclosing path es h

end

end Render

/-- A table in braces ends in a value that keeps the trivia between itself and the brace. -/
structure Closed (es : List Entry) (v : Node) (closing : Text) : Prop where
  last : lastValue? es = some v
  stored : v.pad.after = some closing
  trivia : IsTrivia closing

section Reading

theorem ne_nil_of_find? {name : Text} {es : List Entry} {n : Node} (h : Entries.find? name es = some n) : es ≠ [] := by
  rintro rfl
  simp [Entries.find?] at h

theorem lastValue?_cons (e : Entry) {es : List Entry} (h : es ≠ []) : lastValue? (e :: es) = lastValue? es := by
  rw [lastValue?, if_neg (by simpa using h)]

theorem lastValue?_concat (es : List Entry) (k : Key) (n : Node) : lastValue? (es ++ [(k, n)]) = n.lastValue? := by
  induction es with
  | nil => rfl
  | cons e es ih => rw [List.cons_append, lastValue?_cons e (by simp), ih]

theorem lastValue?_replace {name : Text} {old : Node} (new : Node) {es : List Entry}
    (h : Entries.find? name es = some old) : lastValue? (Entries.replace name new es) = lastValue? es ∨
      (lastValue? es = old.lastValue? ∧ lastValue? (Entries.replace name new es) = new.lastValue?) := by
  induction es with
  | nil => simp [Entries.find?] at h
  | cons e es ih =>
    obtain ⟨k, m⟩ := e
    by_cases hk : k.name = name
    · obtain rfl : m = old := by simpa [Entries.find?, hk] using h
      rw [Entries.replace, if_pos hk]
      by_cases hes : es = []
      · subst hes
        exact .inr ⟨rfl, rfl⟩
      · rw [lastValue?_cons _ hes, lastValue?_cons _ hes]
        exact .inl rfl
    · have hfind : Entries.find? name es = some old := by simpa [Entries.find?, hk] using h
      have hes := ne_nil_of_find? hfind
      have hreplace : Entries.replace name new es ≠ [] := ne_nil_of_find? (Entries.find?_replace_self hfind)
      rw [Entries.replace, if_neg hk, lastValue?_cons _ hes, lastValue?_cons _ hreplace]
      exact ih hfind

/-- Between braces dotted keys extend tables by dotted keys only. -/
theorem extendDotted?_field {f : List Entry → Option (List Entry)} {passing : Bool} {old new : Node}
    (hold : old.Fits .field) (h : extendDotted? passing .inlineDotted f (some old) = some new) :
    ∃ es fs, old = .table .inlineDotted es ∧ entriesFit .field es ∧ f es = some fs ∧
      new = .table .inlineDotted fs := by
  cases old with
  | scalar | array => simp [extendDotted?] at h
  | tables => simp [Node.Fits] at hold
  | table form es =>
    cases form with
    | inline | headed => simp [extendDotted?] at h
    | dotted | implicit => simp [Node.Fits] at hold
    | inlineDotted =>
      simp only [extendDotted?, Option.map_eq_some_iff] at h
      obtain ⟨fs, hfs, rfl⟩ := h
      exact ⟨es, fs, rfl, hold.2, hfs, rfl⟩

/-- Assigning a value makes it the last one or leaves the last one as it is. -/
theorem lastValue?_assign? {n : Node} (hn : n.isInlineDotted = false) (path : List Key) {es fs : List Entry}
    (hes : entriesFit .field es) (h : assign? .inlineDotted path n es = some fs) :
    lastValue? fs = some n ∨ (es ≠ [] ∧ lastValue? fs = lastValue? es) := by
  induction path generalizing es fs with
  | nil => simp [assign?] at h
  | cons k ks ih =>
    cases ks with
    | nil =>
      rw [assign?, Entries.alter?] at h
      cases hfind : Entries.find? k.name es with
      | some old => simp [hfind] at h
      | none =>
        obtain rfl : es ++ [(k, n)] = fs := by simpa [hfind] using h
        rw [lastValue?_concat]
        exact .inl (Node.lastValue?_eq_self hn)
    | cons l ks =>
      rw [assign?, Entries.alter?] at h
      cases hfind : Entries.find? k.name es with
      | none =>
        rw [hfind] at h
        simp only [extendDotted?, Option.map_map, Option.map_eq_some_iff] at h
        obtain ⟨inner, hinner, rfl⟩ := h
        rw [Function.comp_apply, lastValue?_concat]
        rcases ih (show entriesFit .field [] from trivial) hinner with hlast | ⟨hne, -⟩
        · exact .inl hlast
        · exact absurd rfl hne
      | some old =>
        rw [hfind] at h
        simp only [Option.map_eq_some_iff] at h
        obtain ⟨new, hnew, rfl⟩ := h
        obtain ⟨inner, grown, rfl, hinner, hgrown, rfl⟩ := extendDotted?_field (entriesFit_find? hes hfind) hnew
        have hne := ne_nil_of_find? hfind
        rcases lastValue?_replace (.table .inlineDotted grown) hfind with hkept | ⟨hlast, hreplaced⟩
        · exact .inr ⟨hne, hkept⟩
        · rw [hlast, hreplaced]
          exact (ih hinner hgrown).imp id fun h => ⟨hne, h.2⟩

/-- Fields that are there end in a value that keeps the trivia behind it. -/
def EndClosed (es : List Entry) : Prop := es = [] ∨ ∃ v closing, Closed es v closing

theorem endClosed_assign? {n : Node} (hn : n.Fits .value) {path : List Key} {before after : Text} {es fs : List Entry}
    (hafter : IsTrivia after) (hes : entriesFit .field es) (h : EndClosed es)
    (hfs : assign? .inlineDotted path (n.withPad ⟨some before, some after⟩) es = some fs) : EndClosed fs := by
  have hdotted := Node.isInlineDotted_of_isValue (hn.withPad ⟨some before, some after⟩).isValue
  rcases lastValue?_assign? hdotted path hes hfs with hlast | ⟨hne, hlast⟩
  · have hstored : (n.withPad ⟨some before, some after⟩).pad.after = some after := by rw [Node.pad_withPad hn.isValue]
    exact .inr ⟨_, after, hlast, hstored, hafter⟩
  · obtain ⟨v, closing, hclosed⟩ := h.resolve_left hne
    exact .inr ⟨v, closing, hlast.trans hclosed.last, hclosed.stored, hclosed.trivia⟩

end Reading

section Sealed

open Entries

mutual

/-- The tables in braces to which keys lead end in values that keep the trivia before the brace. -/
def Node.Sealed : Node → Prop
  | .table form es =>
    match form with
    | .inline _ _ => EndClosed es ∧ sealedEntries es
    | _ => sealedEntries es
  | _ => True

def sealedEntries : List (Key × Node) → Prop
  | [] => True
  | (_, n) :: es => n.Sealed ∧ sealedEntries es

end

theorem sealedEntries_iff {es : List Entry} : sealedEntries es ↔ ∀ e ∈ es, e.2.Sealed := by
  induction es with
  | nil => simp [sealedEntries]
  | cons e es ih => simp [sealedEntries, ih]

theorem Node.Sealed.entries {form : TableForm} {es : List Entry} (h : (Node.table form es).Sealed) :
    sealedEntries es := by
  cases form with
  | inline => exact h.2
  | inlineDotted | dotted | implicit | headed => exact h

theorem Node.Sealed.withPad {n : Node} (h : n.Sealed) (pad : Padding) : (n.withPad pad).Sealed := by
  unfold Node.withPad
  split <;> exact h

theorem sealedEntries_find? {es : List Entry} (h : sealedEntries es) {name : Text} {n : Node}
    (hn : find? name es = some n) : n.Sealed := by
  obtain ⟨k, hmem, -⟩ := find?_mem hn
  exact sealedEntries_iff.mp h _ hmem

theorem Node.Sealed.get? {n m : Node} (h : n.Sealed) {name : Text} (hm : n.get? name = some m) : m.Sealed := by
  cases n with
  | table form es => exact sealedEntries_find? h.entries hm
  | scalar | array | tables => simp [Node.get?, Node.entries?] at hm

theorem Node.Sealed.at_keys {n m : Node} (h : n.Sealed) {names : List Text} (hm : n.at? (names.map .key) = some m) :
    m.Sealed := by
  induction names generalizing n with
  | nil => exact Option.some.inj hm ▸ h
  | cons name names ih =>
    rw [List.map_cons, Node.at?_key_cons, Option.bind_eq_some_iff] at hm
    obtain ⟨inner, hinner, hm⟩ := hm
    exact ih (h.get? hinner) hm

theorem growth_sealed : HeaderGrowth sealedEntries Node.Sealed where
  nil := trivial
  alter? h hchange hfs := sealedEntries_iff.mpr (forall_alter? (sealedEntries_iff.mp h) hchange hfs)
  table := by
    rintro form es hform h
    cases form with
    | inline preamble pad => exact absurd rfl (hform preamble pad)
    | inlineDotted | dotted | implicit | headed => exact ⟨h, fun _ => id⟩
  tables _ _ _ := trivial
  find? h hn := sealedEntries_find? h hn
  moveLast h hn := sealedEntries_iff.mpr (List.forall_mem_append.mpr
    ⟨fun e he => sealedEntries_iff.mp h e (mem_erase he), List.forall_mem_singleton.mpr hn⟩)
  dotted := id
  implicit := id
  headed := id
  firstElement _ := trivial
  nextElement _ _ := trivial

def sealedInvariant : ReadInvariant where
  value n := n.Fits .value ∧ n.Sealed
  fields es := (entriesFit .field es ∧ EndClosed es) ∧ sealedEntries es
  entries := sealedEntries
  scalar _ _ _ := ⟨Site.noConfusion, trivial⟩
  array hitems _ _ _ := ⟨⟨Site.noConfusion, itemsFit_iff.mpr fun n hn => (hitems n hn).1⟩, trivial⟩
  inline hes _ _ := ⟨⟨Site.noConfusion, hes.1.1⟩, hes.1.2, hes.2⟩
  withPad hn pad := ⟨hn.1.withPad pad, hn.2.withPad pad⟩
  noFields := ⟨⟨trivial, .inl rfl⟩, trivial⟩
  noEntries := trivial
  field hn hafter hes hfs :=
    ⟨⟨fits_field (hn.1.withPad _) hes.1.1 hfs, endClosed_assign? hn.1 hafter hes.1.1 hes.1.2 hfs⟩,
      growth_sealed.assign? (fun _ => id) _ (hn.2.withPad _) hes.2 hfs⟩
  assign hn hes hfs := growth_sealed.assign? (fun _ => id) _ hn.2 hes hfs
  openSection {_ s _ _} hs hes hfs := growth_sealed.openSection? (fun a ha => (hs a ha).2) s.path hes hfs

theorem sealed_read {t : Text} {d : Document} (h : Document.read t = .ok d) : d.root.Sealed := sealedInvariant.read h

end Sealed

end WorkspaceRelease.Toml

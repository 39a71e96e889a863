import WorkspaceRelease.Proofs.Manifest.Stamp

/-!
Stamped documents: each requirement of the family asks for the version, in all sections. This is what a
stamp leaves behind, it depends on the keys and values alone, and a further stamp leaves it as it is.
-/

namespace WorkspaceRelease.Stamp

open Toml Entries

def SectionsAsk (exact : Bool) (lead version : Text) (es : List Entry) : Prop :=
  ∀ name ∈ dependencySections, ∀ form inner, find? name es = some (.table form inner) →
    ∀ k n, (k, n) ∈ inner → lead <+: k.name → Asks exact version n

structure Stamped (exact : Bool) (lead version : Text) (es : List Entry) : Prop where
  package : ∃ form inner n, find? "package".toList es = some (.table form inner) ∧
    find? versionKey inner = some n ∧ IsVersion exact version n
  sections : SectionsAsk exact lead version es
  targets : ∀ form ts, find? "target".toList es = some (.table form ts) →
    ∀ k form' inner, (k, .table form' inner) ∈ ts → SectionsAsk exact lead version inner

variable {exact : Bool} {lead version : Text}

theorem mapEntries_eq_table {f : List Entry → List Entry} {n : Node} {form : TableForm} {es : List Entry}
    (h : n.mapEntries f = .table form es) : ∃ inner, n = .table form inner ∧ es = f inner := by
  cases n with
  | table form' inner =>
    obtain ⟨rfl, rfl⟩ := Node.table.inj h
    exact ⟨inner, rfl, rfl⟩
  | scalar | array | tables => exact nomatch h

theorem sectionsAsk_stampSections (es : List Entry) :
    SectionsAsk true lead version (stampSections lead version es) := by
  intro name hname form inner hfind k n hmem hlead
  rw [find?_stampSections, Option.map_eq_some_iff] at hfind
  obtain ⟨m, -, hm⟩ := hfind
  rw [if_pos (List.contains_iff_mem.mpr hname)] at hm
  obtain ⟨old, rfl, rfl⟩ := mapEntries_eq_table hm
  obtain ⟨⟨k', n'⟩, -, heq⟩ := List.mem_map.mp hmem
  obtain ⟨rfl, rfl⟩ := Prod.mk.inj heq
  rw [if_pos (List.isPrefixOf_iff_prefix.mpr hlead)]
  exact asks_stampRequirement version n'

theorem stamped_stampFamily {es : List Entry} {form : TableForm} {inner : List Entry}
    (h : find? "package".toList es = some (.table form (setVersion version inner))) :
    Stamped true lead version (stampFamily lead version es) where
  package := by
    obtain ⟨pad, hpad⟩ := find?_setVersion version inner
    refine ⟨form, _, _, ?_, hpad, isVersion_versionString version pad⟩
    rw [find?_stampFamily_of_ne lead version es (by decide) (by decide), h]
  sections := by
    have hne : ∀ name ∈ dependencySections, name ≠ "target".toList := by decide
    intro name hname form inner hfind
    rw [stampFamily, find?_stampTargets] at hfind
    simp only [hne name hname, ↓reduceIte, Option.map_id'] at hfind
    exact sectionsAsk_stampSections es name hname form inner hfind
  targets := by
    intro form ts hfind k form' inner hmem
    rw [stampFamily, find?_stampTargets, Option.map_eq_some_iff] at hfind
    obtain ⟨m, -, hm⟩ := hfind
    rw [if_pos rfl] at hm
    obtain ⟨old, rfl, rfl⟩ := mapEntries_eq_table hm
    obtain ⟨⟨k', t⟩, -, heq⟩ := List.mem_map.mp hmem
    obtain ⟨-, ht⟩ := Prod.mk.inj heq
    obtain ⟨old', rfl, rfl⟩ := mapEntries_eq_table ht
    exact sectionsAsk_stampSections old'

theorem Stamped.loose {es : List Entry} (h : Stamped true lead version es) : Stamped false lead version es where
  package := by
    obtain ⟨form, inner, n, hfind, hn, hversion⟩ := h.package
    exact ⟨form, inner, n, hfind, hn, hversion.loose⟩
  sections name hname form inner hfind k n hmem hlead :=
    (h.sections name hname form inner hfind k n hmem hlead).loose
  targets form ts hts k form' es' hes' name hname form'' inner hfind k' n hmem hlead :=
    (h.targets form ts hts k form' es' hes' name hname form'' inner hfind k' n hmem hlead).loose

theorem SectionsAsk.agree {form form' : TableForm} {es fs : List Entry} (h : SectionsAsk exact lead version es)
    (hagree : Node.Agree exact (.table form es) (.table form' fs)) (hfs : distinctEntries fs) :
    SectionsAsk exact lead version fs := by
  intro name hname form₂ inner hfind k n hmem hlead
  obtain ⟨a, ha, haagree⟩ := hagree.symm.find? hfind
  obtain ⟨form₁, old, rfl⟩ := haagree.table
  have hinner : distinctEntries inner := distinctEntries_find? hfs hfind
  obtain ⟨b, hb, hbagree⟩ := haagree.find? (distinctEntries_mem hinner hmem).1
  obtain ⟨k', hmem', hk'⟩ := find?_mem hb
  exact (h name hname form₁ old ha k' b hmem' (hk' ▸ hlead)).agree hbagree.symm

theorem Stamped.agree {form form' : TableForm} {es fs : List Entry} (h : Stamped exact lead version es)
    (hagree : Node.Agree exact (.table form es) (.table form' fs)) (hfs : distinctEntries fs) :
    Stamped exact lead version fs where
  package := by
    obtain ⟨form₁, inner, n, hfind, hn, hversion⟩ := h.package
    obtain ⟨a, ha, haagree⟩ := hagree.find? hfind
    obtain ⟨form₂, inner', rfl⟩ := haagree.table
    obtain ⟨m, hm, hmagree⟩ := haagree.find? hn
    exact ⟨form₂, inner', m, ha, hm, hversion.agree hmagree⟩
  sections := h.sections.agree hagree hfs
  targets := by
    intro form₂ ts hfind k form₃ inner hmem
    obtain ⟨a, ha, haagree⟩ := hagree.symm.find? hfind
    obtain ⟨form₁, us, rfl⟩ := haagree.table
    obtain ⟨hmem', hinner⟩ := distinctEntries_mem (distinctEntries_find? hfs hfind) hmem
    obtain ⟨b, hb, hbagree⟩ := haagree.find? hmem'
    obtain ⟨form₄, old, rfl⟩ := hbagree.table
    obtain ⟨k', hold, -⟩ := find?_mem hb
    exact (h.targets form₁ us ha k' form₄ old hold).agree hbagree.symm hinner

section Again

theorem replace_versionString_self {es : List Entry} {n : Node} (h : find? versionKey es = some n)
    (hn : IsVersion true version n) : replace versionKey (versionString version n.pad) es = es := by
  obtain ⟨written, pad, rfl, hwritten⟩ := hn
  obtain rfl := hwritten rfl
  exact replace_self h

theorem setVersion_eq_self {es : List Entry} {n : Node} (h : find? versionKey es = some n)
    (hn : IsVersion true version n) : setVersion version es = es := by
  simp only [setVersion, h]
  exact replace_versionString_self h hn

theorem setTableVersion_eq_self (form : TableForm) {es : List Entry} {n : Node} (h : find? versionKey es = some n)
    (hn : IsVersion true version n) : setTableVersion version form es = es := by
  unfold setTableVersion
  split
  case h_3 => exact setVersion_eq_self h hn
  all_goals
    simp only [setInlineVersion, h]
    exact replace_versionString_self h hn

theorem stampRequirement_eq_self {n : Node} (h : Asks true version n) : stampRequirement version n = n := by
  match n with
  | .scalar (.string s) written pad =>
    obtain ⟨written', pad', heq, hwritten⟩ := h
    obtain ⟨hs, rfl, rfl⟩ := Node.scalar.inj heq
    obtain rfl := Scalar.string.inj hs
    rw [stampRequirement, versionString, ← hwritten rfl]
  | .table form es =>
    rw [stampRequirement]
    cases hes : inherits es with
    | true => rfl
    | false =>
      obtain ⟨n, hn, hversion⟩ := h hes
      simp only [Bool.false_eq_true, ↓reduceIte, setTableVersion_eq_self form hn hversion]
  | .scalar (.integer _) _ _ | .scalar (.float _) _ _ | .scalar (.boolean _) _ _
  | .scalar (.dateTime _) _ _ | .array _ _ _ _ | .tables _ => rfl

theorem map_eq_self {α : Type} {f : α → α} {l : List α} (h : ∀ a ∈ l, f a = a) : l.map f = l := by
  rw [List.map_congr_left h, List.map_id']

theorem stampSections_eq_self {es : List Entry} (h : SectionsAsk true lead version es)
    (hes : distinctEntries es) : stampSections lead version es = es := by
  refine map_eq_self fun ⟨k, n⟩ hmem => ?_
  by_cases hk : dependencySections.contains k.name
  · cases n with
    | table form inner =>
      have hinner : stampTable lead version inner = inner := by
        refine map_eq_self fun ⟨k', m⟩ hm => ?_
        by_cases hlead : lead.isPrefixOf k'.name
        · have hasks := h k.name (List.contains_iff_mem.mp hk) form inner (distinctEntries_mem hes hmem).1
            k' m hm (List.isPrefixOf_iff_prefix.mp hlead)
          simp only [hlead, ↓reduceIte, stampRequirement_eq_self hasks]
        · simp only [hlead, Bool.false_eq_true, ↓reduceIte]
      simp only [hk, ↓reduceIte, Node.mapEntries, hinner]
    | scalar | array | tables => simp only [Node.mapEntries, ite_self]
  · simp only [hk, Bool.false_eq_true, ↓reduceIte]

theorem stampTargets_eq_self {es : List Entry} (h : Stamped true lead version es)
    (hes : distinctEntries es) : stampTargets lead version es = es := by
  refine map_eq_self fun ⟨k, n⟩ hmem => ?_
  by_cases hk : k.name = "target".toList
  · cases n with
    | table form ts =>
      obtain ⟨hfind, hts⟩ := distinctEntries_mem hes hmem
      rw [hk] at hfind
      have hinner : (ts.map fun (k, t) => (k, t.mapEntries (stampSections lead version))) = ts := by
        refine map_eq_self fun ⟨k', t⟩ ht => ?_
        cases t with
        | table form' inner =>
          have hsections := stampSections_eq_self (h.targets form ts hfind k' form' inner ht)
            (distinctEntries_mem hts ht).2
          simp only [Node.mapEntries, hsections]
        | scalar | array | tables => rfl
      simp only [hk, ↓reduceIte, Node.mapEntries]
      exact congrArg (fun us => (k, Node.table form us)) hinner
    | scalar | array | tables => simp only [Node.mapEntries, ite_self]
  · simp only [hk, ↓reduceIte]

theorem stampPackage?_eq_self {es : List Entry} (h : Stamped true lead version es) :
    stampPackage? version es = some es := by
  obtain ⟨form, inner, n, hfind, hn, hversion⟩ := h.package
  simp only [stampPackage?, hfind, Option.bind_eq_bind, Option.bind_some]
  rw [setVersion_eq_self hn hversion, replace_self hfind]

theorem stampFamily_eq_self {es : List Entry} (h : Stamped true lead version es) (hes : distinctEntries es) :
    stampFamily lead version es = es := by
  rw [stampFamily, stampSections_eq_self h.sections hes, stampTargets_eq_self h hes]

end Again

end WorkspaceRelease.Stamp

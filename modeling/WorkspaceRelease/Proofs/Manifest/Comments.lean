import WorkspaceRelease.Proofs.Manifest.Slotwise
import WorkspaceRelease.Proofs.Toml.Retention

/-!
A stamp that finds values at the places of the version, or nothing, keeps every comment around them.
-/

namespace WorkspaceRelease.Stamp

open Toml

section Tables

variable {keep : List Step → Bool} {loc : List Step} {version : Text}

theorem entriesKeep_replace {es : List Entry} {name : Text} {old new : Node} (hfind : Entries.find? name es = some old)
    (h : old.Keeps keep (loc ++ [.key name]) new) : EntriesKeep keep loc es (Entries.replace name new es) := by
  refine .of_grown ?_
  induction es with
  | nil => simp [Entries.find?] at hfind
  | cons e es ih =>
    obtain ⟨k, n⟩ := e
    by_cases hk : k.name = name
    · obtain rfl : n = old := by simpa [Entries.find?, hk] using hfind
      rw [Entries.replace, if_pos hk]
      exact .cons ⟨rfl, hk ▸ h⟩ (EntriesGrown.refl es)
    · have hfind' : Entries.find? name es = some old := by simpa [Entries.find?, hk] using hfind
      rw [Entries.replace, if_neg hk]
      exact .cons ⟨rfl, .refl n⟩ (ih hfind')

theorem entriesKeep_replaceVersion {es : List Entry} {old : Node} (hfind : Entries.find? versionKey es = some old)
    (hvalue : old.isValue) (hlost : ∀ within, loc ++ [.key versionKey] <+: within → keep within = false) :
    EntriesKeep keep loc es (Entries.replace versionKey (versionString version old.pad) es) :=
  entriesKeep_replace hfind (.replace hvalue hlost _ _)

theorem entriesKeep_setVersion {es : List Entry} (hvalue : ∀ n, Entries.find? versionKey es = some n → n.isValue)
    (hlost : ∀ within, loc ++ [.key versionKey] <+: within → keep within = false) :
    EntriesKeep keep loc es (setVersion version es) := by
  unfold setVersion
  cases hfind : Entries.find? versionKey es with
  | some old => exact entriesKeep_replaceVersion hfind (hvalue old hfind) hlost
  | none =>
    refine .of_grown ?_
    have hold : EntriesGrown keep loc es es := .refl es
    have hlast : EntriesGrown keep loc [] [(Key.ofName versionKey, versionString version {})] :=
      .insert (fun _ _ _ => rfl) .nil
    have hgrown := Grown.append hold hlast
    rwa [List.append_nil] at hgrown

/-- The text between the last value and the brace goes on to the new version, with the comments in it. -/
theorem fieldComments_withPad (within loc : List Step) (path : List Key) (k : Key) (n : Node) :
    fieldComments within loc path (k, n) =
      fieldComments within loc path (k, n.withPad { n.pad with after := some [] }) ++ n.pad.trailing within := by
  have hempty : (Padding.trailing { n.pad with after := some [] } within) = [] := rfl
  cases n with
  | scalar data written pad =>
    simp only [fieldComments, Node.isInlineDotted, Node.withPad, comments_scalar, Node.pad] at hempty ⊢
    simp [hempty, Padding.leading]
  | array items comma trailing pad =>
    simp only [fieldComments, Node.isInlineDotted, Node.withPad, comments_array, Node.pad] at hempty ⊢
    simp [hempty, Padding.leading]
  | table form es =>
    cases form with
    | inline preamble pad =>
      simp only [fieldComments, Node.isInlineDotted, Node.withPad, comments_inline, Node.pad] at hempty ⊢
      simp [hempty, Padding.leading]
    | inlineDotted | dotted | implicit | headed => exact (List.append_nil _).symm
  | tables ts => exact (List.append_nil _).symm

theorem fields_appendVersion (within : List Step) (path : List Key) (es : List Entry) :
    CommentsKeep keep (es.flatMap (fieldComments within loc path))
      ((appendVersion version es).flatMap (fieldComments within loc path)) := by
  unfold appendVersion
  cases hlast : es.getLast? with
  | none =>
    rw [List.getLast?_eq_none_iff.mp hlast]
    exact .ofNew _
  | some e =>
    obtain ⟨k, n⟩ := e
    obtain ⟨init, rfl⟩ := List.getLast?_eq_some_iff.mp hlast
    have hversion (cs : List Comment) : CommentsKeep keep (n.pad.trailing within)
        (cs ++ (versionString version { after := n.pad.after }).comments within (loc ++ [.key versionKey])) := by
      rw [versionString, comments_scalar]
      exact (CommentsKeep.ofNew cs).append ((CommentsKeep.ofNew _).append (.refl _))
    -- The comments behind the last field are those behind the version now.
    rw [List.dropLast_concat, List.flatMap_append, List.flatMap_append, List.flatMap_singleton, List.flatMap_cons,
      List.flatMap_singleton, fieldComments_withPad]
    exact (CommentsKeep.refl _).append ((CommentsKeep.refl _).append (hversion _))

theorem keeps_setTableVersion {form : TableForm} {es : List Entry}
    (hvalue : ∀ n, Entries.find? versionKey es = some n → n.isValue)
    (hlost : ∀ within, loc ++ [.key versionKey] <+: within → keep within = false) :
    (Node.table form es).Keeps keep loc (.table form (setTableVersion version form es)) := by
  have hbraces (hform : form = .inlineDotted ∨ ∃ preamble pad, form = .inline preamble pad) :
      (Node.table form es).Keeps keep loc (.table form (setInlineVersion version es)) := by
    unfold setInlineVersion
    cases hfind : Entries.find? versionKey es with
    | some old => exact .table (entriesKeep_replaceVersion hfind (hvalue old hfind) hlost) form
    | none => exact .braces hform fun within path => fields_appendVersion within path es
  cases form with
  | inline preamble pad => exact hbraces (.inr ⟨preamble, pad, rfl⟩)
  | inlineDotted => exact hbraces (.inl rfl)
  | dotted | implicit | headed => exact .table (entriesKeep_setVersion hvalue hlost) _

end Tables

theorem at?_field (form : TableForm) {es : List Entry} {name : Text} {n : Node} (h : Entries.find? name es = some n) :
    (Node.table form es).at? [.key name] = some n := by
  have hchild : (Node.table form es).child? (.key name) = some n := h
  rw [Node.at?, hchild]
  rfl

/-- The function keeps the comments outside of the values at the slots of a node, where these are values. -/
def KeepsAround (slot : Data → List Step → Prop) (g : Node → Node) : Prop :=
  ∀ (n : Node) (keep : List Step → Bool) (loc : List Step), n.Distinct →
    (∀ path m, slot n.data path → n.at? path = some m → m.isValue) →
    (∀ path, slot n.data path → ∀ within, loc ++ path <+: within → keep within = false) → n.Keeps keep loc (g n)

namespace KeepsAround

theorem congr {slot slot' : Data → List Step → Prop} {g : Node → Node} (h : KeepsAround slot g)
    (hslot : ∀ d path, slot' d path ↔ slot d path) : KeepsAround slot' g := by
  intro n keep loc hn hvalue hlost
  refine h n keep loc hn (fun path m hpath => ?_) fun path hpath => ?_
  · exact hvalue path m ((hslot _ _).mpr hpath)
  · exact hlost path ((hslot _ _).mpr hpath)

theorem entries {inner : Text → Data → List Step → Prop} {g : Text → Node → Node}
    (h : ∀ name, KeepsAround (inner name) (g name)) (form : TableForm) {es : List Entry} {keep : List Step → Bool}
    {loc : List Step} (hes : distinctEntries es)
    (hvalue : ∀ path m, Below inner (Node.table form es).data path → (Node.table form es).at? path = some m → m.isValue)
    (hlost : ∀ path, Below inner (Node.table form es).data path →
      ∀ within, loc ++ path <+: within → keep within = false) :
    EntriesKeep keep loc es (es.map fun e => (e.1, g e.1.name e.2)) := by
  refine .of_grown (.map fun ⟨k, n⟩ hmem => ⟨rfl, ?_⟩)
  obtain ⟨hfind, hn⟩ := distinctEntries_mem hes hmem
  have hchild : (Node.table form es).child? (.key k.name) = some n := hfind
  have hslot (path : List Step) (hpath : inner k.name n.data path) :
      Below inner (Node.table form es).data (.key k.name :: path) :=
    .field (by rw [child?_data, hchild]; rfl) hpath
  refine h k.name n keep _ hn (fun path m hpath hm => ?_) fun path hpath within hwithin => ?_
  · refine hvalue (.key k.name :: path) m (hslot path hpath) ?_
    rw [Node.at?, hchild]
    exact hm
  · refine hlost (.key k.name :: path) (hslot path hpath) within ?_
    rwa [List.append_assoc] at hwithin

theorem mapEntries {inner : Text → Data → List Step → Prop} (g : Text → Node → Node)
    (h : ∀ name, KeepsAround (inner name) (g name)) :
    KeepsAround (Below inner) (Node.mapEntries (List.map fun e => (e.1, g e.1.name e.2))) := by
  intro n keep loc hn hvalue hlost
  cases n with
  | table form es => exact .table (entries h form hn hvalue hlost) form
  | scalar | array | tables => exact .refl _

theorem requirement (version : Text) : KeepsAround RequirementSlot (stampRequirement version) := by
  intro n keep loc hn hvalue hlost
  match n with
  | .scalar (.string s) written pad =>
    have hself : ∀ within, loc <+: within → keep within = false := by
      have hslot := hlost [] (.string s)
      rwa [List.append_nil] at hslot
    exact .replace rfl hself _ _
  | .table form es =>
    cases h : inherits es with
    | true =>
      rw [stampRequirement, h, if_pos rfl]
      exact .refl _
    | false =>
      have hslot : RequirementSlot (Node.table form es).data [.key versionKey] := by
        refine .field fun hinherits => ?_
        simp [inherits_iff_data.mpr hinherits] at h
      have hversion (m : Node) (hm : Entries.find? versionKey es = some m) : m.isValue :=
        hvalue [.key versionKey] m hslot (at?_field form hm)
      simp only [stampRequirement, h, Bool.false_eq_true, ↓reduceIte]
      exact keeps_setTableVersion hversion (hlost _ hslot)
  | .scalar (.integer _) _ _ | .scalar (.float _) _ _ | .scalar (.boolean _) _ _
  | .scalar (.dateTime _) _ _ | .array _ _ _ _ | .tables _ => exact .refl _

theorem package (version : Text) :
    KeepsAround (fun _ path => path = [.key versionKey]) (Node.mapEntries (setVersion version)) := by
  intro n keep loc hn hvalue hlost
  cases n with
  | table form es =>
    have hversion (m : Node) (hm : Entries.find? versionKey es = some m) : m.isValue :=
      hvalue [.key versionKey] m rfl (at?_field form hm)
    exact .table (entriesKeep_setVersion hversion (hlost _ rfl)) form
  | scalar | array | tables => exact .refl _

theorem slotwise (version : Text) : Slotwise version KeepsAround where
  congr := congr
  refl _ n _ _ _ _ _ := .refl n
  mapEntries := mapEntries
  requirement := requirement version
  package := package version

end KeepsAround

section Documents

variable {lead version : Text} {d : Document}

/-- No version is a table by dotted keys or headers. -/
def PlainVersions (lead : Text) (d : Document) : Prop :=
  ∀ path n, VersionSlot lead d.data path → d.root.at? path = some n → n.isValue

theorem plainVersions_iff :
    PlainVersions lead d ↔ ∀ path ∈ versionSlots lead d.data, (d.root.at? path).all Node.isValue = true := by
  simp only [PlainVersions, mem_versionSlots, Option.all_eq_true]
  constructor
  · intro h path hpath n hn
    exact h path n hpath hn
  · intro h path n hpath hn
    exact h path hpath n hn

instance (lead : Text) (d : Document) : Decidable (PlainVersions lead d) := decidable_of_iff _ plainVersions_iff.symm

theorem keeps_carry (hd : distinctEntries d.entries) (hpackage : Packaged d.entries) (hplain : PlainVersions lead d) :
    CommentsKeep (outside (VersionSlot lead d.data)) (comments d.pieces)
      (comments ((stampVersions lead version).carry d).pieces) := by
  have hlost (path : List Step) (hpath : VersionSlot lead d.data path) (within : List Step) (h : path <+: within) :
      outside (VersionSlot lead d.data) within = false :=
    outside_eq_false hpath h
  have hroot : EntriesKeep (outside (VersionSlot lead d.data)) [] d.entries
      (d.entries.map fun e => (e.1, stampRoot lead version e.1.name e.2)) :=
    KeepsAround.entries ((KeepsAround.slotwise version).stampRoot lead) .implicit hd
      (fun path m hpath => hplain path m (.of_below hpath)) fun path hpath => hlost path (.of_below hpath)
  rw [← carry_stampVersions hd hpackage] at hroot
  exact keeps_document hroot rfl

end Documents

end WorkspaceRelease.Stamp

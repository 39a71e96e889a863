import WorkspaceRelease.Proofs.Toml.Agreement
import WorkspaceRelease.Toml.Data

/-!
Changes to data, path by path: some places get a string, and nothing else changes.
-/

namespace WorkspaceRelease.Toml

namespace Data

def child? : Data → Step → Option Data
  | d, .key name => d.get? name
  | .list items, .item i => items[i]?
  | _, .item _ => none

def at? (d : Data) : List Step → Option Data
  | [] => some d
  | s :: path => (d.child? s).bind fun e => e.at? path

def shape : Data → Shape
  | .scalar s => .scalar s none
  | .list items => .list items.length
  | .map _ => .table

end Data

theorem child?_data (n : Node) (step : Step) : n.data.child? step = (n.child? step).map Node.data := by
  cases n with
  | scalar => cases step <;> rfl
  | array items =>
    cases step with
    | key => rfl
    | item i => simp [Node.data, Data.child?, Node.child?, itemData_eq_map]
  | table form es =>
    cases step with
    | key name => exact lookup_entryData name es
    | item => rfl
  | tables ts =>
    cases step with
    | key => rfl
    | item i => simp [Node.data, Data.child?, Node.child?, itemData_eq_map]

theorem at?_data (n : Node) (path : List Step) : n.data.at? path = (n.at? path).map Node.data := by
  induction path generalizing n with
  | nil => rfl
  | cons step path ih =>
    rw [Data.at?, Node.at?, child?_data]
    cases n.child? step with
    | none => rfl
    | some m => exact ih m

/-- Every slot has the string afterwards, and every path that is not at or below a slot leads to what it has led
to before. -/
structure Changes (t : Text) (slot : List Step → Prop) (before after : Option Data) : Prop where
  slots : ∀ s, slot s → after.bind (Data.at? · s) = some (.string t)
  others : ∀ path, (∀ s, slot s → ¬s <+: path) →
    (after.bind (Data.at? · path)).map Data.shape = (before.bind (Data.at? · path)).map Data.shape

/-- Every slot has its string afterwards, and every path that is not at or below a slot leads to what it has led
to before. -/
structure Writes (slot : List Step → Text → Prop) (before after : Option Data) : Prop where
  slots : ∀ s t, slot s t → after.bind (Data.at? · s) = some (.string t)
  others : ∀ path, (∀ s t, slot s t → ¬s <+: path) →
    (after.bind (Data.at? · path)).map Data.shape = (before.bind (Data.at? · path)).map Data.shape

/-- Slots within the fields of a map. -/
inductive Below (inner : Text → Data → List Step → Prop) (d : Data) : List Step → Prop
  | field {name : Text} {e : Data} {rest : List Step} :
    d.child? (.key name) = some e → inner name e rest → Below inner d (.key name :: rest)

theorem below_iff {inner : Text → Data → List Step → Prop} {d : Data} {name : Text} {rest : List Step} :
    Below inner d (.key name :: rest) ↔ ∃ e, d.child? (.key name) = some e ∧ inner name e rest := by
  constructor
  · rintro ⟨he, hrest⟩
    exact ⟨_, he, hrest⟩
  · rintro ⟨e, he, hrest⟩
    exact .field he hrest

theorem changes_iff_writes {t : Text} {slot : List Step → Prop} {before after : Option Data} :
    Changes t slot before after ↔ Writes (fun s u => slot s ∧ u = t) before after := by
  constructor
  · intro h
    refine ⟨?_, fun path hpath => h.others path fun s hs => hpath s t ⟨hs, rfl⟩⟩
    rintro s u ⟨hs, rfl⟩
    exact h.slots s hs
  · intro h
    refine ⟨fun s hs => h.slots s t ⟨hs, rfl⟩, fun path hpath => h.others path ?_⟩
    rintro s u ⟨hs, -⟩
    exact hpath s hs

namespace Writes

variable {slot slot' : List Step → Text → Prop} {before after : Option Data}

theorem congr (h : Writes slot before after) (hslot : ∀ s t, slot' s t ↔ slot s t) : Writes slot' before after where
  slots s t hs := h.slots s t ((hslot s t).mp hs)
  others path hpath := h.others path fun s t hs => hpath s t ((hslot s t).mpr hs)

theorem refl (hslot : ∀ s t, ¬slot s t) (d : Option Data) : Writes slot d d where
  slots s t hs := absurd hs (hslot s t)
  others _ _ := rfl

theorem map {fields fields' : List (Text × Data)} (hslot : ∀ s t, slot s t → ∃ name rest, s = .key name :: rest)
    (h : ∀ name, Writes (fun rest t => slot (.key name :: rest) t) (fields.lookup name) (fields'.lookup name)) :
    Writes slot (some (.map fields)) (some (.map fields')) where
  slots s t hs := by
    obtain ⟨name, rest, rfl⟩ := hslot s t hs
    exact (h name).slots rest t hs
  others path hpath := by
    match path with
    | [] => rfl
    | .item i :: path => rfl
    | .key name :: path =>
      refine (h name).others path fun s t hs hprefix => ?_
      exact hpath (.key name :: s) t hs (List.cons_prefix_cons.mpr ⟨rfl, hprefix⟩)

theorem mapEntries {f : List Entry → List Entry} {g : Text → Node → Node}
    (inner : Text → Text → Data → List Step → Prop)
    (hf : ∀ name es, Entries.find? name (f es) = (Entries.find? name es).map (g name))
    (h : ∀ name n, Writes (fun s t => inner t name n.data s) (some n.data) (some (g name n).data)) (n : Node) :
    Writes (fun s t => Below (inner t) n.data s) (some n.data) (some (n.mapEntries f).data) := by
  cases n with
  | table form es =>
    refine .map ?_ fun name => ?_
    · rintro s t ⟨-, -⟩
      exact ⟨_, _, rfl⟩
    · rw [lookup_entryData, lookup_entryData, hf]
      cases hfind : Entries.find? name es with
      | none =>
        refine .refl (fun rest t hrest => ?_) none
        obtain ⟨e, he, -⟩ := below_iff.mp hrest
        simp [Data.child?, Data.get?, Node.data, lookup_entryData, hfind] at he
      | some m =>
        refine (h name m).congr fun rest t => ?_
        rw [below_iff]
        simp [Data.child?, Data.get?, Node.data, lookup_entryData, hfind]
  | scalar | array | tables =>
    refine .refl (fun s t hs => ?_) _
    obtain ⟨he, -⟩ := hs
    exact nomatch he

end Writes

namespace Changes

variable {t : Text} {slot : List Step → Prop} {before after : Option Data}

theorem refl (hslot : ∀ s, ¬slot s) (d : Option Data) : Changes t slot d d where
  slots s hs := absurd hs (hslot s)
  others _ _ := rfl

theorem string (hslot : ∀ s, slot s ↔ s = []) (before : Option Data) :
    Changes t slot before (some (.string t)) where
  slots s hs := by
    obtain rfl := (hslot s).mp hs
    rfl
  others path hpath := absurd (List.nil_prefix) (hpath [] ((hslot []).mpr rfl))

theorem map {fields fields' : List (Text × Data)} (hslot : ∀ s, slot s → ∃ name rest, s = .key name :: rest)
    (h : ∀ name, Changes t (fun rest => slot (.key name :: rest)) (fields.lookup name) (fields'.lookup name)) :
    Changes t slot (some (.map fields)) (some (.map fields')) :=
  changes_iff_writes.mpr (.map (fun s _ hs => hslot s hs.1) fun name => changes_iff_writes.mp (h name))

end Changes

end WorkspaceRelease.Toml

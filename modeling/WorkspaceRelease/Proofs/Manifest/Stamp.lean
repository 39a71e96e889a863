import WorkspaceRelease.Manifest.Stamp
import WorkspaceRelease.Proofs.Toml.Agreement
import WorkspaceRelease.Proofs.Toml.Distinct

/-!
What a stamped document says about the version, that another document that says the same is stamped
as well, and that stamping a stamped document changes nothing.
-/

namespace WorkspaceRelease.Stamp

open Toml

section Lookup

open Entries

theorem find?_map (g : Text → Node → Node) (name : Text) (es : List Entry) :
    find? name (es.map fun e => (e.1, g e.1.name e.2)) = (find? name es).map (g name) := by
  induction es with
  | nil => rfl
  | cons e es ih =>
    by_cases h : e.1.name = name
    · simp [find?, h]
    · simpa [find?, h] using ih

theorem replace_self {name : Text} {n : Node} {es : List Entry} (h : find? name es = some n) :
    replace name n es = es := by
  induction es with
  | nil => rfl
  | cons e es ih =>
    by_cases hk : e.1.name = name
    · obtain rfl : e.2 = n := by simpa [find?, hk] using h
      simp [replace, hk]
    · have h' : find? name es = some n := by simpa [find?, hk] using h
      simp [replace, hk, ih h']

theorem find?_stampSections (lead version name : Text) (es : List Entry) :
    find? name (stampSections lead version es) =
      (find? name es).map fun n =>
        if dependencySections.contains name then n.mapEntries (stampTable lead version) else n :=
  find?_map (fun k n => if dependencySections.contains k then n.mapEntries (stampTable lead version) else n)
    name es

theorem find?_stampTargets (lead version name : Text) (es : List Entry) :
    find? name (stampTargets lead version es) =
      (find? name es).map fun n =>
        if name = "target".toList then
          n.mapEntries (List.map fun (k, t) => (k, t.mapEntries (stampSections lead version)))
        else n :=
  find?_map (fun k n => if k = "target".toList then
      n.mapEntries (List.map fun (k, t) => (k, t.mapEntries (stampSections lead version))) else n) name es

theorem find?_stampFamily_of_ne (lead version : Text) {name : Text} (es : List Entry)
    (hsection : dependencySections.contains name = false) (htarget : name ≠ "target".toList) :
    find? name (stampFamily lead version es) = find? name es := by
  simp only [stampFamily, find?_stampTargets, find?_stampSections, htarget, hsection, Bool.false_eq_true,
    ↓reduceIte, Option.map_id']

theorem find?_setVersion (version : Text) (es : List Entry) :
    ∃ pad, find? versionKey (setVersion version es) = some (versionString version pad) := by
  unfold setVersion
  cases h : find? versionKey es with
  | some old => exact ⟨old.pad, find?_replace_self h⟩
  | none => exact ⟨{}, by simp [find?_append, h, find?, Key.ofName]⟩

theorem find?_appendVersion {version : Text} {es : List Entry} (h : find? versionKey es = none) :
    ∃ pad, find? versionKey (appendVersion version es) = some (versionString version pad) := by
  unfold appendVersion
  cases hlast : es.getLast? with
  | none => exact ⟨{}, by simp [find?, Key.ofName]⟩
  | some e =>
    refine ⟨{ after := e.2.pad.after }, ?_⟩
    obtain ⟨init, rfl⟩ := List.getLast?_eq_some_iff.mp hlast
    rw [find?_append, Option.or_eq_none_iff] at h
    obtain ⟨hinit, he⟩ := h
    have hne : e.1.name ≠ versionKey := by
      intro hname
      simp [find?, hname] at he
    simp [find?_append, hinit, find?, hne, Key.ofName]

theorem find?_setInlineVersion (version : Text) (es : List Entry) :
    ∃ pad, find? versionKey (setInlineVersion version es) = some (versionString version pad) := by
  unfold setInlineVersion
  cases h : find? versionKey es with
  | some old => exact ⟨old.pad, find?_replace_self h⟩
  | none => exact find?_appendVersion h

theorem find?_setTableVersion (version : Text) (form : TableForm) (es : List Entry) :
    ∃ pad, find? versionKey (setTableVersion version form es) = some (versionString version pad) := by
  unfold setTableVersion
  split
  · exact find?_setInlineVersion version es
  · exact find?_setInlineVersion version es
  · exact find?_setVersion version es

end Lookup

/-- A node is the version, written as a new string is written if it is to be exact. -/
def IsVersion (exact : Bool) (version : Text) (n : Node) : Prop :=
  ∃ written pad, n = .scalar (.string version) written pad ∧ (exact = true → written = encodeString version)

/-- A requirement asks for the version, unless it leaves the version to something else. -/
def Asks (exact : Bool) (version : Text) : Node → Prop
  | .scalar (.string s) written pad => IsVersion exact version (.scalar (.string s) written pad)
  | .table _ es => inherits es = false →
    ∃ n, Entries.find? versionKey es = some n ∧ IsVersion exact version n
  | _ => True

theorem isVersion_versionString (version : Text) (pad : Padding) :
    IsVersion true version (versionString version pad) := ⟨_, pad, rfl, fun _ => rfl⟩

theorem asks_stampRequirement (version : Text) (n : Node) : Asks true version (stampRequirement version n) := by
  match n with
  | .scalar (.string _) _ pad => exact isVersion_versionString version pad
  | .table form es =>
    intro hinherits
    cases h : inherits es with
    | true => simp [h] at hinherits
    | false =>
      obtain ⟨pad, hpad⟩ := find?_setTableVersion version form es
      exact ⟨_, by simpa using hpad, isVersion_versionString version pad⟩
  | .scalar (.integer _) _ _ | .scalar (.float _) _ _ | .scalar (.boolean _) _ _
  | .scalar (.dateTime _) _ _ | .array _ _ _ _ | .tables _ => trivial

section

variable {exact : Bool} {version : Text} {n m : Node}

theorem IsVersion.loose (h : IsVersion true version n) : IsVersion false version n := by
  obtain ⟨written, pad, rfl, -⟩ := h
  exact ⟨written, pad, rfl, by simp⟩

theorem Asks.loose (h : Asks true version n) : Asks false version n := by
  match n with
  | .scalar (.string _) _ _ => exact IsVersion.loose h
  | .table _ es =>
    intro hes
    obtain ⟨n, hn, hversion⟩ := h hes
    exact ⟨n, hn, hversion.loose⟩
  | .scalar (.integer _) _ _ | .scalar (.float _) _ _ | .scalar (.boolean _) _ _
  | .scalar (.dateTime _) _ _ | .array _ _ _ _ | .tables _ => trivial

theorem IsVersion.agree (h : IsVersion exact version n) (hnm : Node.Agree exact n m) :
    IsVersion exact version m := by
  obtain ⟨written, pad, rfl, hwritten⟩ := h
  obtain ⟨written', pad', rfl, hsame⟩ := hnm.scalar
  exact ⟨written', pad', rfl, fun hexact => (hsame hexact).trans (hwritten hexact)⟩

theorem boolean?_eq_some {b : Bool} :
    n.boolean? = some b ↔ ∃ written pad, n = .scalar (.boolean b) written pad := by
  constructor
  · intro h
    unfold Node.boolean? at h
    split at h
    · obtain rfl := Option.some.inj h
      exact ⟨_, _, rfl⟩
    · simp at h
  · rintro ⟨written, pad, rfl⟩
    rfl

theorem inherits_iff {es : List Entry} : inherits es = true ↔
    ∃ written pad, Entries.find? "workspace".toList es = some (.scalar (.boolean true) written pad) := by
  unfold inherits
  rw [decide_eq_true_iff, Option.bind_eq_some_iff]
  constructor
  · rintro ⟨n, hn, hbool⟩
    obtain ⟨written, pad, rfl⟩ := boolean?_eq_some.mp hbool
    exact ⟨written, pad, hn⟩
  · rintro ⟨written, pad, h⟩
    exact ⟨_, h, rfl⟩

theorem inherits_agree {form form' : TableForm} {es es' : List Entry}
    (h : Node.Agree exact (.table form es) (.table form' es')) (hes : inherits es = true) :
    inherits es' = true := by
  obtain ⟨written, pad, hn⟩ := inherits_iff.mp hes
  obtain ⟨m, hm, hnm⟩ := h.find? hn
  obtain ⟨written', pad', rfl, -⟩ := hnm.scalar
  exact inherits_iff.mpr ⟨written', pad', hm⟩

theorem Asks.agree (h : Asks exact version n) (hnm : Node.Agree exact n m) : Asks exact version m := by
  match m with
  | .scalar (.string s) written pad =>
    obtain ⟨written', pad', rfl, -⟩ := hnm.symm.scalar
    exact IsVersion.agree h hnm
  | .table form es =>
    obtain ⟨form', es', rfl⟩ := hnm.symm.table
    intro hinherits
    have hinherits' : inherits es' = false := by
      cases h' : inherits es' with
      | false => rfl
      | true => simp [inherits_agree hnm h'] at hinherits
    obtain ⟨v, hv, hversion⟩ := h hinherits'
    obtain ⟨v', hv', hagree⟩ := hnm.find? hv
    exact ⟨v', hv', hversion.agree hagree⟩
  | .scalar (.integer _) _ _ | .scalar (.float _) _ _ | .scalar (.boolean _) _ _
  | .scalar (.dateTime _) _ _ | .array _ _ _ _ | .tables _ => trivial

end

end WorkspaceRelease.Stamp

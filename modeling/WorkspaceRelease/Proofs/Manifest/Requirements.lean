import WorkspaceRelease.Proofs.Stamping.Texts

/-!
The versions that the requirements of a manifest denote. One that inherits from the workspace denotes what
the manifest at the root says under its name, and no stamp changes that.
-/

namespace WorkspaceRelease

open Toml

namespace Toml

def Node.requirement? : Node → Option Text
  | .scalar (.string s) _ _ => some s
  | .table _ es => (Entries.find? Stamp.versionKey es).bind Node.string?
  | _ => none

def Node.inherits : Node → Bool
  | .table _ es => Stamp.inherits es
  | _ => false

def Document.inherited? (root : Document) (name : Text) : Option Node :=
  ((Entries.find? "workspace".toList root.entries).bind (Node.get? "dependencies".toList)).bind (Node.get? name)

/-- The version that an entry of some name denotes in a workspace. -/
def Document.denoted? (root : Document) (name : Text) (n : Node) : Option Text :=
  if n.inherits then (root.inherited? name).bind Node.requirement? else n.requirement?

/-- The requirements of the family that can have a version, in all sections. -/
def Document.requirements (lead : Text) (d : Document) : List (Text × Node) :=
  (Stamp.coveredTables d.entries).flatten.filterMap fun (k, n) =>
    if lead.isPrefixOf k.name && (n.isString || n.entries?.isSome) then some (k.name, n) else none

section Agree

variable {exact : Bool} {n m : Node} {d e : Document} {name v : Text}

theorem Node.Agree.requirement? (h : n.Agree exact m) (hn : n.requirement? = some v) : m.requirement? = some v := by
  match n, hn with
  | .scalar (.string _) _ _, rfl =>
    obtain ⟨written, pad, rfl, -⟩ := h.scalar
    rfl
  | .table form es, hn =>
    obtain ⟨form', es', rfl⟩ := h.table
    obtain ⟨a, ha, hv⟩ := Option.bind_eq_some_iff.mp hn
    obtain ⟨b, hb, hab⟩ := h.find? ha
    exact Option.bind_eq_some_iff.mpr ⟨b, hb, hab.string? hv⟩

theorem Document.Agree.inherited? (h : d.Agree exact e) (hn : d.inherited? name = some n) :
    ∃ m, e.inherited? name = some m ∧ n.Agree exact m := by
  obtain ⟨b, hb, hn⟩ := Option.bind_eq_some_iff.mp hn
  obtain ⟨a, ha, hb⟩ := Option.bind_eq_some_iff.mp hb
  obtain ⟨a', ha', haa⟩ := Node.Agree.find? h ha
  obtain ⟨b', hb', hbb⟩ := haa.get? hb
  obtain ⟨m, hm, hnm⟩ := hbb.get? hn
  exact ⟨m, Option.bind_eq_some_iff.mpr ⟨b', Option.bind_eq_some_iff.mpr ⟨a', ha', hb'⟩, hm⟩, hnm⟩

theorem Document.Agree.requirement_inherited? (h : d.Agree exact e)
    (hv : (d.inherited? name).bind Node.requirement? = some v) :
    (e.inherited? name).bind Node.requirement? = some v := by
  obtain ⟨n, hn, hv⟩ := Option.bind_eq_some_iff.mp hv
  obtain ⟨m, hm, hnm⟩ := h.inherited? hn
  exact Option.bind_eq_some_iff.mpr ⟨m, hm, hnm.requirement? hv⟩

theorem Document.Agree.denoted?_eq (h : d.Agree exact e) (hn : n.inherits = true) :
    e.denoted? name n = d.denoted? name n := by
  simp only [denoted?, hn, ↓reduceIte]
  apply Option.ext
  intro v
  constructor
  · intro hv
    exact Document.Agree.requirement_inherited? (Node.Agree.symm h) hv
  · intro hv
    exact h.requirement_inherited? hv

end Agree

end Toml

namespace Stamp

variable {exact : Bool} {lead version : Text}

theorem denoted?_stampDocument {d stamped : Document} (h : stampDocument? version lead d = some stamped)
    {name : Text} {n : Node} (hn : n.inherits = true) : stamped.denoted? name n = d.denoted? name n := by
  simp only [Document.denoted?, hn, ↓reduceIte, Document.inherited?]
  rw [find?_stampDocument h (by decide) (by decide) (by decide)]

theorem mem_sectionTables {es inner : List Entry} : inner ∈ sectionTables es ↔
    ∃ name ∈ dependencySections, ∃ form, Entries.find? name es = some (.table form inner) := by
  have hentries : ∀ n : Node, n.entries? = some inner ↔ ∃ form, n = .table form inner := by
    intro n
    cases n <;> simp [Node.entries?]
  simp only [sectionTables, List.mem_filterMap, Option.bind_eq_some_iff, hentries]
  constructor
  · rintro ⟨name, hname, n, hfind, form, rfl⟩
    exact ⟨name, hname, form, hfind⟩
  · rintro ⟨name, hname, form, hfind⟩
    exact ⟨name, hname, _, hfind, form, rfl⟩

theorem mem_coveredTables {es inner : List Entry} (h : inner ∈ coveredTables es) : inner ∈ sectionTables es ∨
    ∃ form ts k form' target, Entries.find? "target".toList es = some (.table form ts) ∧
      (k, .table form' target) ∈ ts ∧ inner ∈ sectionTables target := by
  rcases List.mem_append.mp h with h | h
  · exact .inl h
  · refine .inr ?_
    obtain ⟨⟨k, t⟩, ht, hinner⟩ := List.mem_flatMap.mp h
    cases hfind : Entries.find? "target".toList es with
    | none =>
      rw [hfind] at ht
      exact nomatch ht
    | some n =>
      rw [hfind] at ht
      cases n with
      | table form ts =>
        cases t with
        | table form' target => exact ⟨form, ts, k, form', target, rfl, ht, hinner⟩
        | scalar | array | tables => exact nomatch hinner
      | scalar | array | tables => exact nomatch ht

theorem SectionsAsk.asks {es inner : List Entry} (h : SectionsAsk exact lead version es)
    (hinner : inner ∈ sectionTables es) {k : Key} {n : Node} (hmem : (k, n) ∈ inner) (hlead : lead <+: k.name) :
    Asks exact version n := by
  obtain ⟨name, hname, form, hfind⟩ := mem_sectionTables.mp hinner
  exact h name hname form inner hfind k n hmem hlead

theorem Stamped.asks {es inner : List Entry} (h : Stamped exact lead version es) (hinner : inner ∈ coveredTables es)
    {k : Key} {n : Node} (hmem : (k, n) ∈ inner) (hlead : lead <+: k.name) : Asks exact version n := by
  rcases mem_coveredTables hinner with hinner | ⟨form, ts, k', form', target, hfind, ht, hinner⟩
  · exact h.sections.asks hinner hmem hlead
  · exact (h.targets form ts hfind k' form' target ht).asks hinner hmem hlead

theorem Asks.requirement? {n : Node} (h : Asks exact version n) (hown : n.inherits = false)
    (hform : n.isString = true ∨ n.entries?.isSome = true) : n.requirement? = some version := by
  match n, h with
  | .scalar (.string s) _ _, h =>
    obtain ⟨written, pad, heq, -⟩ := h
    obtain ⟨hs, -, -⟩ := Node.scalar.inj heq
    obtain rfl := Scalar.string.inj hs
    rfl
  | .table form es, h =>
    obtain ⟨v, hv, written, pad, rfl, -⟩ := h hown
    exact Option.bind_eq_some_iff.mpr ⟨_, hv, rfl⟩
  | .scalar (.integer _) _ _, _ | .scalar (.float _) _ _, _ | .scalar (.boolean _) _ _, _
  | .scalar (.dateTime _) _ _, _ | .array _ _ _ _, _ | .tables _, _ =>
    simp [Node.isString, Node.entries?] at hform

theorem Stamped.requirement? {d : Document} (h : Stamped exact lead version d.entries) {name : Text} {n : Node}
    (hmem : (name, n) ∈ d.requirements lead) (hown : n.inherits = false) : n.requirement? = some version := by
  obtain ⟨⟨k, m⟩, hentry, hselect⟩ := List.mem_filterMap.mp hmem
  obtain ⟨inner, hinner, hentry⟩ := List.mem_flatten.mp hentry
  obtain ⟨hcond, heq⟩ := Option.ite_none_right_eq_some.mp hselect
  obtain ⟨rfl, rfl⟩ := Prod.mk.inj (Option.some.inj heq)
  obtain ⟨hlead, hform⟩ := Bool.and_eq_true_iff.mp hcond
  have hasks := h.asks hinner hentry (List.isPrefixOf_iff_prefix.mp hlead)
  exact hasks.requirement? hown (Bool.or_eq_true_iff.mp hform)

end Stamp

/-- However often a text is stamped, what it says for those that inherit from it stays the same. -/
theorem Faithful.denoted? {lead version t s : Text} {d : Document} (h : Faithful lead version t)
    (hs : Relation.ReflTransGen (Stamps lead version) t s) (hd : Document.read t = .ok d) :
    ∃ e, Document.read s = .ok e ∧ ∀ name n, n.inherits = true → e.denoted? name n = d.denoted? name n := by
  induction hs with
  | refl => exact ⟨d, hd, fun _ _ _ => rfl⟩
  | @tail u s hu hlast ih =>
    obtain ⟨e, he, hsame⟩ := ih
    obtain ⟨e', stamped, he', hstamp, rfl⟩ := hlast
    obtain rfl : e = e' := Except.ok.inj (he.symm.trans he')
    obtain ⟨f, hf, hagree⟩ := h u e stamped hu he hstamp
    refine ⟨f, hf, fun name n hn => ?_⟩
    calc f.denoted? name n
        = stamped.denoted? name n := hagree.denoted?_eq hn
      _ = e.denoted? name n := Stamp.denoted?_stampDocument hstamp hn
      _ = d.denoted? name n := hsame name n hn

end WorkspaceRelease

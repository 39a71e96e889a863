import WorkspaceRelease.Files

/-!
What a walk through a tree of files sees, and what remains of the tree when texts are rewritten.
-/

namespace WorkspaceRelease.FileTree

theorem find?_map_key {α β : Type} [DecidableEq α] (es : List (α × β)) (k l : α) (v : β) :
    (((es.map fun e => if e.1 = l then (l, v) else e).find? fun e => e.1 = k).map (·.2)) =
      if k = l then (es.find? fun e => e.1 = l).map (fun _ => v)
      else (es.find? fun e => e.1 = k).map (·.2) := by
  induction es with
  | nil => simp
  | cons e es ih =>
    by_cases hel : e.1 = l
    · by_cases hkl : k = l
      · simp [hel, hkl]
      · simp [hel, hkl, Ne.symm hkl] at ih ⊢
        exact ih
    · by_cases hek : e.1 = k
      · have hkl : k ≠ l := fun h => hel (hek.trans h)
        simp [hek, hkl]
      · simp only [List.map_cons, hel, ↓reduceIte, List.find?_cons, hek, decide_false] at ih ⊢
        exact ih

theorem lookup_insert (files : FileTree) {l : Location} (k : Location) (entry : FileEntry) (hl : l ≠ []) :
    (files.insert l entry).lookup k = if k = l then some entry else files.lookup k := by
  cases k with
  | nil => simp [lookup, Ne.symm hl]
  | cons name names =>
    unfold insert
    split
    next hany =>
      have hfound : ((files.entries.find? fun e => e.1 = l).map fun _ => entry) = some entry := by
        simp only [List.any_eq_true, decide_eq_true_eq] at hany
        obtain ⟨e, he, hel⟩ := hany
        cases hfind : files.entries.find? fun e => e.1 = l with
        | none => exact absurd hel (by simpa using List.find?_eq_none.mp hfind e he)
        | some _ => rfl
      simp only [lookup, find?_map_key, hfound]
    next hany =>
      have hnone : files.entries.find? (fun e => e.1 = l) = none := by
        rw [List.find?_eq_none]
        intro e he hel
        exact hany (List.any_eq_true.mpr ⟨e, he, hel⟩)
      simp only [lookup, List.find?_append]
      by_cases hk : name :: names = l
      · simp [hk, hnone]
      · simp [hk, Ne.symm hk]

@[simp] theorem insert_guards (files : FileTree) (l : Location) (entry : FileEntry) :
    (files.insert l entry).guards = files.guards := by
  unfold insert
  split <;> rfl

theorem guardAt_congr {files other : FileTree} (h : other.guards = files.guards) (l : Location) :
    other.guardAt l = files.guardAt l := by rw [guardAt, guardAt, h]

theorem resolve_congr {files other : FileTree} (h : ∀ l, files.passage l = other.passage l) (cwd : Location)
    (p : Path) : files.resolve cwd p = other.resolve cwd p := by
  have hstep : files.step = other.step := by
    funext l segment
    rw [step, step, h l]
  unfold resolve
  rw [hstep]

def textAt (files : FileTree) (l : Location) : Except FileError Text := do
  match ← files.contentAt l with
  | .text t => .ok t
  | .binary _ => .error .notUtf8

theorem textAt_eq_ok {files : FileTree} {l : Location} {t : Text} :
    files.textAt l = .ok t ↔ files.lookup l = some (.file (.text t)) ∧ (files.guardAt l).read = none := by
  unfold textAt contentAt
  rcases files.lookup l with _ | (_ | _) | _ <;> cases (files.guardAt l).read <;> simp [bind, Except.bind]

theorem lookup_of_textAt {files : FileTree} {l : Location} {t : Text} (h : files.textAt l = .ok t) :
    files.lookup l = some (.file (.text t)) := (textAt_eq_ok.mp h).1

theorem textAt_congr {files other : FileTree} {l : Location} (hl : other.lookup l = files.lookup l)
    (hguards : other.guards = files.guards) : other.textAt l = files.textAt l := by
  rw [textAt, contentAt, hl, guardAt_congr hguards, textAt, contentAt]

theorem readText_eq (files : FileTree) (cwd : Location) (p : Path) :
    files.readText cwd p =
      match files.resolve cwd p with
      | .error e => .error e
      | .ok l => files.textAt l := by
  unfold readText read textAt
  cases files.resolve cwd p <;> rfl

theorem readText_eq_ok {files : FileTree} {cwd : Location} {p : Path} {t : Text} :
    files.readText cwd p = .ok t ↔ ∃ l, files.resolve cwd p = .ok l ∧ files.textAt l = .ok t := by
  rw [readText_eq]
  cases files.resolve cwd p with
  | error e => simp
  | ok l => simp

theorem writeText_of_resolve {files : FileTree} {cwd : Location} {p : Path} {l : Location} (s : Text)
    (hl : files.resolve cwd p = .ok l) : files.writeText cwd p s =
      match files.writeRefusal? l with
      | some refusal => .error refusal
      | none => .ok (files.insert l (.file (.text s))) := by
  cases hw : files.writeRefusal? l with
  | none => simp [writeText, hl, hw, bind, Except.bind]
  | some refusal => simp [writeText, hl, hw, bind, Except.bind]

/-- The second tree is the first with one file at a text. -/
structure Holds (files after : FileTree) (l : Location) (s : Text) : Prop where
  lookup : ∀ k, after.lookup k = if k = l then some (.file (.text s)) else files.lookup k
  guards : after.guards = files.guards

namespace Holds

variable {files after : FileTree} {l : Location} {s t : Text}

theorem self (ht : files.textAt l = .ok t) : Holds files files l t := by
  refine ⟨fun k => ?_, rfl⟩
  split
  next hk => rw [hk, lookup_of_textAt ht]
  next => rfl

theorem insert (ht : files.textAt l = .ok t) (s : Text) : Holds files (files.insert l (.file (.text s))) l s := by
  have hl : l ≠ [] := by
    rintro rfl
    simpa [FileTree.lookup] using lookup_of_textAt ht
  exact ⟨fun k => lookup_insert files k _ hl, insert_guards files l _⟩

theorem textAt (h : Holds files after l s) (ht : files.textAt l = .ok t) : after.textAt l = .ok s := by
  refine textAt_eq_ok.mpr ⟨by rw [h.lookup, if_pos rfl], ?_⟩
  rw [guardAt_congr h.guards]
  exact (textAt_eq_ok.mp ht).2

theorem textAt_of_ne (h : Holds files after l s) {k : Location} (hk : k ≠ l) : after.textAt k = files.textAt k :=
  textAt_congr ((h.lookup k).trans (if_neg hk)) h.guards

end Holds

/-- Nothing but the texts of some files has changed that let themselves be read and written, each in a way that the
relation allows. -/
structure Rewritten (R : Text → Text → Prop) (before after : FileTree) : Prop where
  lookup : ∀ l, after.lookup l = before.lookup l ∨ before.writeRefusal? l = none ∧
    ∃ t s, before.textAt l = .ok t ∧ after.textAt l = .ok s ∧ R t s
  guards : after.guards = before.guards

namespace Rewritten

variable {R : Text → Text → Prop} {before after : FileTree}

theorem refl (files : FileTree) : Rewritten R files files := ⟨fun _ => .inl rfl, rfl⟩

theorem guardAt_eq (h : Rewritten R before after) (l : Location) : after.guardAt l = before.guardAt l :=
  guardAt_congr h.guards l

theorem textAt_eq (h : Rewritten R before after) {l : Location} (hl : after.lookup l = before.lookup l) :
    after.textAt l = before.textAt l := textAt_congr hl h.guards

/-- What stands at a location is of the same kind before and after. -/
theorem entry_cases (h : Rewritten R before after) (l : Location) : after.lookup l = before.lookup l ∨
    ∃ t s, before.lookup l = some (.file (.text t)) ∧ after.lookup l = some (.file (.text s)) := by
  rcases h.lookup l with hl | ⟨-, t, s, ht, hs, -⟩
  · exact .inl hl
  · exact .inr ⟨t, s, lookup_of_textAt ht, lookup_of_textAt hs⟩

theorem passage_eq (h : Rewritten R before after) (l : Location) : before.passage l = after.passage l := by
  rcases h.entry_cases l with hl | ⟨t, s, ht, hs⟩
  · simp only [passage, hl, h.guardAt_eq]
  · simp only [passage, ht, hs]

theorem writeRefusal?_eq (h : Rewritten R before after) (l : Location) :
    after.writeRefusal? l = before.writeRefusal? l := by
  rcases h.entry_cases l with hl | ⟨t, s, ht, hs⟩
  · simp only [writeRefusal?, hl, h.guardAt_eq]
  · simp only [writeRefusal?, ht, hs, h.guardAt_eq]

theorem resolve_eq (h : Rewritten R before after) (cwd : Location) (p : Path) :
    after.resolve cwd p = before.resolve cwd p := (resolve_congr h.passage_eq cwd p).symm

end Rewritten

theorem Holds.rewritten {files after : FileTree} {l : Location} {s t : Text} (h : Holds files after l s)
    (ht : files.textAt l = .ok t) (hopen : files.writeRefusal? l = none) :
    Rewritten (fun _ _ => True) files after := by
  refine ⟨fun k => ?_, h.guards⟩
  by_cases hk : k = l
  · obtain rfl := hk
    exact .inr ⟨hopen, t, s, ht, h.textAt ht, trivial⟩
  · exact .inl ((h.lookup k).trans (if_neg hk))

end WorkspaceRelease.FileTree

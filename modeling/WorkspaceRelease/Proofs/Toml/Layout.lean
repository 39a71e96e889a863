import WorkspaceRelease.Proofs.Toml.Overwrite

/-!
Documents that say the same and look the same, whichever token owns the text between two tokens.
-/

namespace WorkspaceRelease.Toml

/-- Trivia character by character. -/
def Piece.split : Piece → List Piece
  | .trivia within t => t.map fun c => .trivia within [c]
  | p => [p]

namespace Document

def layout (d : Document) : List Piece := d.pieces.flatMap Piece.split

/-- The text of a document reads back to the same keys and values, in the same order and with the same text
between them. -/
def KeepsLayout (d : Document) : Prop :=
  ∃ e, Document.read d.render = .ok e ∧ Agree false d e ∧ e.layout = d.layout

theorem piecesText_layout (d : Document) : piecesText d.layout = d.render := by
  have hsplit (p : Piece) : piecesText p.split = p.text := by
    cases p with
    | trivia within t => induction t with
      | nil => rfl
      | cons c t ih => simpa [Piece.split, Piece.text] using ih
    | token | value => simp [Piece.split, Piece.text]
  rw [layout, piecesText_flatMap, ← piecesText_pieces]
  simp only [hsplit]
  rfl

theorem layout_overwrite (hit : List Step → Bool) (s : Text) (d : Document) :
    (d.overwrite hit s).layout = d.layout.map (Piece.overwrite hit s) := by
  have hsplit (p : Piece) : (p.overwrite hit s).split = p.split.map (Piece.overwrite hit s) := by
    cases p with
    | trivia => simp [Piece.overwrite, Piece.split]
    | token | value => rfl
  rw [layout, layout, pieces_overwrite, List.flatMap_map, List.map_flatMap]
  simp only [hsplit]

end Document

namespace Data

/-- Two values say the same at each path. -/
def Agree (d e : Data) : Prop := ∀ path, (d.at? path).map shape = (e.at? path).map shape

namespace Agree

variable {d e : Data}

theorem symm (h : Agree d e) : Agree e d := fun path => (h path).symm

theorem child (h : Agree d e) {step : Step} {a : Data} (ha : d.child? step = some a) :
    ∃ b, e.child? step = some b ∧ Agree a b := by
  cases hb : e.child? step with
  | none =>
    have hpath := h [step]
    simp [at?, ha, hb] at hpath
  | some b =>
    refine ⟨b, rfl, fun path => ?_⟩
    have hpath := h (step :: path)
    simpa [at?, ha, hb] using hpath

theorem scalar {s : Scalar} (h : Agree (.scalar s) e) : e = .scalar s := by
  have hshape : some (shape (.scalar s)) = some e.shape := h []
  cases e with
  | scalar => simpa [shape] using hshape.symm
  | list | map => simp [shape] at hshape

theorem map {fields : List (Text × Data)} (h : Agree (.map fields) e) : ∃ fields', e = .map fields' := by
  have hshape : some (shape (.map fields)) = some e.shape := h []
  cases e with
  | map fields' => exact ⟨fields', rfl⟩
  | scalar | list => simp [shape] at hshape

end Agree

end Data

theorem shape_data (n : Node) : n.data.shape = n.shape false := by
  cases n with
  | scalar | table => rfl
  | array | tables => simp [Node.data, Data.shape, Node.shape, itemData_eq_map]

theorem map_shape_data (n : Node) (path : List Step) :
    (n.data.at? path).map Data.shape = (n.at? path).map (Node.shape false) := by
  rw [at?_data, Option.map_map]
  congr 1
  funext m
  exact shape_data m

theorem Node.Agree.data {n m : Node} (h : Node.Agree false n m) : Data.Agree n.data m.data := by
  intro path
  rw [map_shape_data, map_shape_data]
  exact h path

theorem Node.agree_of_data {n m : Node} (h : n.data = m.data) : Node.Agree false n m := by
  intro path
  rw [← map_shape_data, ← map_shape_data, h]

theorem Below.agree {inner : Text → Data → List Step → Prop} {d e : Data} {path : List Step} (h : Data.Agree d e)
    (hinner : ∀ name a b path, Data.Agree a b → inner name a path → inner name b path) (hpath : Below inner d path) :
    Below inner e path := by
  obtain ⟨ha, hrest⟩ := hpath
  obtain ⟨b, hb, hab⟩ := h.child ha
  exact .field hb (hinner _ _ b _ hab hrest)

end WorkspaceRelease.Toml

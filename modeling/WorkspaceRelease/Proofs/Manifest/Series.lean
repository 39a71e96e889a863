import WorkspaceRelease.Proofs.Manifest.Paths

/-!
Operations on one manifest in turn. The last version that is given to a place is the one that it has in the end,
and nothing else is left of the series.
-/

namespace WorkspaceRelease

open Toml

variable {σ : Type}

namespace Stamp

theorem mapEntries_id (n : Node) : n.mapEntries id = n := by
  cases n <;> rfl

theorem carryTable_none : carryTable (fun _ => none) = id := by
  funext es
  simp [carryTable, carryRequirement]

theorem carrySections_none : carrySections (fun _ => none) = id := by
  funext es
  simp [carrySections, carryTable_none, mapEntries_id]

theorem carryRoot_none (name : Text) (n : Node) : carryRoot (fun _ => none) name n = n := by
  have htargets : (List.map fun (e : Entry) => (e.1, e.2.mapEntries (carrySections fun _ => none))) = id := by
    funext ts
    simp [carrySections_none, mapEntries_id]
  rw [carryRoot, carryTable_none, mapEntries_id, htargets, mapEntries_id, ite_self, ite_self]

theorem carry_none (d : Document) : Versions.carry ⟨none, fun _ => none⟩ d = d := by
  simp [Versions.carry, carryFamily, carryPackage, carryRoot_none]

end Stamp

namespace Manifest

open Stamp (Versions)

inductive Operation where
  | setPackage (version : Text)
  | setFamily (lead version : Text)
  | isModified
  | save
  deriving DecidableEq, Repr

inductive Answer where
  | done
  | stamped (dependencies : Nat)
  | modified (differs : Bool)
  deriving DecidableEq, Repr

namespace Operation

def packageVersion? : Operation → Option Text
  | .setPackage version => some version
  | _ => none

def familyVersion? (name : Text) : Operation → Option Text
  | .setFamily lead version => if lead.isPrefixOf name then some version else none
  | _ => none

/-- No place gets a version from both operations. -/
def Independent : Operation → Operation → Prop
  | .setPackage _, .setPackage _ => False
  | .setFamily lead _, .setFamily other _ => ¬lead <+: other ∧ ¬other <+: lead
  | _, _ => True

end Operation

/-- The version that each place is given last. -/
def lastVersions (ops : List Operation) : Versions where
  package := ops.reverse.findSome? Operation.packageVersion?
  family name := ops.reverse.findSome? (Operation.familyVersion? name)

def perform (m : Manifest) : Operation → ReleaseM σ (Manifest × Answer)
  | .setPackage version => do
    let m ← m.stampPackage version
    pure (m, .done)
  | .setFamily lead version => do
    let (m, n) ← m.stampFamily lead version
    pure (m, .stamped n)
  | .isModified => pure (m, .modified m.isModified)
  | .save => do
    m.save
    pure (m, .done)

/-- Performs the operations in turn. One that fails leaves the manifest to the next as it is. -/
def performAll (m : Manifest) : List Operation → World σ → List (Except ReleaseError Answer) × Manifest × World σ
  | [], w => ([], m, w)
  | op :: ops, w =>
    match (m.perform op).runIn w with
    | (.ok (next, answer), w) =>
      let (answers, rest) := next.performAll ops w
      (.ok answer :: answers, rest)
    | (.error e, w) =>
      let (answers, rest) := m.performAll ops w
      (.error e :: answers, rest)

section LastVersions

variable {op x y : Operation} {ops : List Operation}

theorem lastVersions_append (ops later : List Operation) :
    lastVersions (ops ++ later) = (lastVersions later).override (lastVersions ops) := by
  simp only [lastVersions, Versions.override, List.reverse_append, List.findSome?_append]

theorem lastVersions_cons (op : Operation) (ops : List Operation) :
    lastVersions (op :: ops) = (lastVersions ops).override (lastVersions [op]) := lastVersions_append [op] ops

theorem packageVersion?_of_independent (h : x.Independent y) :
    x.packageVersion? = none ∨ y.packageVersion? = none := by
  cases x with
  | setPackage =>
    cases y with
    | setPackage => exact absurd h id
    | setFamily | isModified | save => exact .inr rfl
  | setFamily | isModified | save => exact .inl rfl

theorem familyVersion?_of_independent (h : x.Independent y) (name : Text) :
    x.familyVersion? name = none ∨ y.familyVersion? name = none := by
  cases x with
  | setFamily lead version =>
    cases y with
    | setFamily other version' =>
      by_cases hlead : lead <+: name
      · refine .inr (if_neg fun hother => ?_)
        rcases List.prefix_or_prefix_of_prefix hlead (List.isPrefixOf_iff_prefix.mp hother) with h' | h'
        · exact h.1 h'
        · exact h.2 h'
      · exact .inl (if_neg (mt List.isPrefixOf_iff_prefix.mp hlead))
    | setPackage | isModified | save => exact .inr rfl
  | setPackage | isModified | save => exact .inl rfl

theorem override_comm {a b : Versions} (hpackage : a.package = none ∨ b.package = none)
    (hfamily : ∀ name, a.family name = none ∨ b.family name = none) : a.override b = b.override a := by
  have hor {s t : Option Text} (h : s = none ∨ t = none) : s.or t = t.or s := by
    rcases h with rfl | rfl <;> simp
  simp only [Versions.override, hor hpackage, fun name => hor (hfamily name)]

theorem lastVersions_singleton (op : Operation) :
    lastVersions [op] = ⟨op.packageVersion?, fun name => op.familyVersion? name⟩ := by
  simp [lastVersions]

theorem lastVersions_swap (h : x.Independent y) (before after : List Operation) :
    lastVersions (before ++ y :: x :: after) = lastVersions (before ++ x :: y :: after) := by
  have hpair : (lastVersions [x]).override (lastVersions [y]) = (lastVersions [y]).override (lastVersions [x]) := by
    rw [lastVersions_singleton, lastVersions_singleton]
    exact override_comm (packageVersion?_of_independent h) (familyVersion?_of_independent h)
  rw [← lastVersions_append, ← lastVersions_append] at hpair
  calc lastVersions (before ++ ([y] ++ [x] ++ after))
      = ((lastVersions after).override (lastVersions ([y] ++ [x]))).override (lastVersions before) := by
        rw [lastVersions_append, lastVersions_append]
    _ = lastVersions (before ++ ([x] ++ [y] ++ after)) := by
        rw [hpair, ← lastVersions_append, ← lastVersions_append]

end LastVersions

def carry (vs : Versions) (m : Manifest) : Manifest := { m with document := vs.carry m.document }

/-- How an operation on a manifest is answered where its document has become another: the count is that of the
manifest itself. -/
def Answers (m : Manifest) (now : Document) (answer : Except ReleaseError Answer) : Operation → Prop
  | .setPackage _ => answer = .ok .done
  | .setFamily lead _ => answer = .ok (.stamped (m.familyCount lead))
  | .isModified => ∃ differs, answer = .ok (.modified differs) ∧ (differs = true ↔ now.render ≠ m.loaded)
  | .save => answer = .ok .done ∨ ∃ cause, answer = .error (.manifestWrite m.path cause)

section Step

variable {m : Manifest}

theorem carry_carry (h : Stamp.Packaged m.document.entries) (later earlier : Versions) :
    (m.carry earlier).carry later = m.carry (later.override earlier) := by
  simp only [carry, Versions.carry_carry h]

theorem familyCount_carry (vs : Versions) (m : Manifest) (lead : Text) :
    (m.carry vs).familyCount lead = m.familyCount lead := by
  rw [familyCount, familyCount, Stamp.familyCount, carry, vs.familyOutcomes_carry]
  rfl

theorem setPackageVersion?_carry (h : Stamp.Packaged m.document.entries) (version : Text) :
    m.setPackageVersion? version = some (m.carry ⟨some version, fun _ => none⟩) := by
  obtain ⟨form, inner, hfind⟩ := h
  have hfamily : Stamp.carryFamily (fun _ => none) = id := by
    funext es
    simp [Stamp.carryFamily, Stamp.carryRoot_none]
  rw [setPackageVersion?, Stamp.stampPackage?_eq version hfind, Option.map_some, carry, Versions.carry, hfamily,
    Stamp.carryPackage, Stamp.stampPackage?_eq version hfind]
  rfl

theorem setFamilyVersions_carry (lead version : Text) (m : Manifest) : m.setFamilyVersions lead version =
    m.carry ⟨none, fun name => if lead.isPrefixOf name then some version else none⟩ := by
  rw [setFamilyVersions, Stamp.stampFamily_eq_carryFamily]
  rfl

theorem performAll_cons (h : Stamp.Packaged m.document.entries) (op : Operation) (ops : List Operation) (w : World σ) :
    ∃ (answer : Except ReleaseError Answer) (next : World σ), m.Answers m.document answer op ∧
      m.performAll (op :: ops) w =
        (answer :: ((m.carry (lastVersions [op])).performAll ops next).1,
          ((m.carry (lastVersions [op])).performAll ops next).2) := by
  have hnone : m.carry ⟨none, fun _ => none⟩ = m := by rw [carry, Stamp.carry_none]
  rw [lastVersions_singleton]
  cases op with
  | setPackage version =>
    refine ⟨.ok .done, w, rfl, ?_⟩
    simp only [performAll, perform, stampPackage, setPackageVersion?_carry h, ReleaseM.runIn_bind, ReleaseM.runIn_pure]
    rfl
  | setFamily lead version =>
    let next := w.record ((m.familyRecords lead).map fun r => .output (.log r))
    refine ⟨.ok (.stamped (m.familyCount lead)), next, rfl, ?_⟩
    simp only [performAll, perform, stampFamily, setFamilyVersions_carry, ReleaseM.runIn_bind, ReleaseM.runIn_pure,
      ReleaseM.runIn_logAll]
    rfl
  | isModified =>
    refine ⟨.ok (.modified m.isModified), w, ⟨m.isModified, rfl, bne_iff_ne⟩, ?_⟩
    simp only [performAll, perform, ReleaseM.runIn_pure, Operation.packageVersion?, Operation.familyVersion?, hnone]
  | save =>
    simp only [performAll, perform, save, ReleaseM.runIn_bind, ReleaseM.runIn_writeText, Operation.packageVersion?,
      Operation.familyVersion?, hnone]
    cases w.files.writeText w.cwd m.path m.render with
    | ok files => exact ⟨.ok .done, _, .inl rfl, rfl⟩
    | error cause => exact ⟨.error (.manifestWrite m.path cause), _, .inr ⟨cause, rfl⟩, rfl⟩

end Step

/-- What a series of operations leaves behind. The document, and so the text that is printed for it, is that of
the last versions alone. -/
structure LastWritten (m : Manifest) (ops : List Operation) (w : World σ)
    (answers : List (Except ReleaseError Answer)) (after : Manifest) : Prop where
  origin : after.path = m.path ∧ after.loaded = m.loaded
  document : after.document = (lastVersions ops).carry m.document
  data : Writes (Stamp.VersionsSlot (lastVersions ops) m.document.data) (some m.document.data)
    (some after.document.data)
  answered : answers.length = ops.length ∧ ∀ i op answer, ops[i]? = some op → answers[i]? = some answer →
    m.Answers ((lastVersions (ops.take i)).carry m.document) answer op
  determined : ∀ other, lastVersions other = lastVersions ops → (m.performAll other w).2.1 = after
  swapped : ∀ early x y late, ops = early ++ x :: y :: late → x.Independent y →
    (m.performAll (early ++ y :: x :: late) w).2.1 = after

theorem performAll_carry {m : Manifest} (h : Stamp.Packaged m.document.entries) (ops : List Operation) (w : World σ) :
    (m.performAll ops w).2.1 = m.carry (lastVersions ops) := by
  induction ops generalizing m w with
  | nil => exact (congrArg (Manifest.mk m.path m.loaded) (Stamp.carry_none m.document)).symm
  | cons op ops ih =>
    obtain ⟨answer, next, -, hrun⟩ := performAll_cons h op ops w
    calc (m.performAll (op :: ops) w).2.1
        = (m.carry (lastVersions [op])).carry (lastVersions ops) := by
          rw [hrun]
          exact ih (m := m.carry (lastVersions [op])) (Versions.packaged_carry h _) next
      _ = m.carry (lastVersions (op :: ops)) := by rw [carry_carry h, ← lastVersions_cons]

theorem performAll_answers {m : Manifest} (h : Stamp.Packaged m.document.entries) (ops : List Operation) (w : World σ) :
    (m.performAll ops w).1.length = ops.length ∧ ∀ i op answer, ops[i]? = some op →
      (m.performAll ops w).1[i]? = some answer →
      m.Answers ((lastVersions (ops.take i)).carry m.document) answer op := by
  induction ops generalizing m w with
  | nil => simp [performAll]
  | cons first ops ih =>
    obtain ⟨answer, next, hanswer, hrun⟩ := performAll_cons h first ops w
    obtain ⟨hlength, hrest⟩ := ih (m := m.carry (lastVersions [first])) (Versions.packaged_carry h _) next
    rw [hrun]
    refine ⟨by simpa using hlength, fun i op a hop ha => ?_⟩
    cases i with
    | zero =>
      obtain rfl : first = op := by simpa using hop
      obtain rfl : answer = a := by simpa using ha
      rw [List.take_zero]
      exact (Stamp.carry_none m.document).symm ▸ hanswer
    | succ i =>
      have hlater := hrest i op a (by simpa using hop) (by simpa using ha)
      rw [List.take_succ_cons, lastVersions_cons, ← Versions.carry_carry h]
      cases op with
      | setFamily lead version => exact hlater.trans (by rw [familyCount_carry])
      | setPackage | isModified | save => exact hlater

theorem performAll_lastWritten {m : Manifest} {fields : List (Text × Data)}
    (hpackage : m.document.data.get? "package".toList = some (.map fields)) (ops : List Operation) (w : World σ) :
    LastWritten m ops w (m.performAll ops w).1 (m.performAll ops w).2.1 := by
  have h : Stamp.Packaged m.document.entries := find?_of_data hpackage
  rw [performAll_carry h ops w]
  exact {
    origin := ⟨rfl, rfl⟩
    document := rfl
    data := Stamp.writes_carry (lastVersions ops) (.inr h)
    answered := performAll_answers h ops w
    determined := fun other hother => by rw [performAll_carry h, hother]
    swapped := by
      rintro early x y late rfl hxy
      rw [performAll_carry h, lastVersions_swap hxy] }

/-- Two leads of which one continues the other, with a save between them. -/
def overlappingSeries : List Operation :=
  [.setFamily "ena".toList ['1'], .setPackage ['2'], .save, .isModified, .setFamily "ena-b".toList ['3', '\'', '"']]

set_option maxRecDepth 10000 in
theorem performAll_lastWritten_overlapping :
    Document.read variedManifest = .ok variedDocument ∧
      (∃ fields, variedDocument.data.get? "package".toList = some (.map fields)) ∧
      LastWritten ⟨manifestFile, variedManifest, variedDocument⟩ overlappingSeries
        (World.fresh {})
        (performAll ⟨manifestFile, variedManifest, variedDocument⟩ overlappingSeries (.fresh {})).1
        (performAll ⟨manifestFile, variedManifest, variedDocument⟩ overlappingSeries (.fresh {})).2.1 :=
  ⟨rfl, ⟨_, rfl⟩, performAll_lastWritten rfl _ _⟩

end Manifest

end WorkspaceRelease

import WorkspaceRelease.Proofs.Except
import WorkspaceRelease.Proofs.Path
import WorkspaceRelease.Proofs.Stamping.File

/-!
The path that is printed for a member leads from the workspace to the manifest that is stamped.
-/

namespace WorkspaceRelease

variable {σ : Type}

namespace Path

open Text

variable {base m : Path}

theorem exists_splitOn_join (base : Path) :
    ∃ front, ∀ m, m.isAbsolute = false → splitOn '/' (base.join m) = front ++ splitOn '/' m := by
  by_cases hbase : base = []
  · subst hbase
    exact ⟨[], fun m _ => by rw [nil_join, List.nil_append]⟩
  · obtain ⟨s, hs⟩ : ∃ s, base.slashed = s ++ ['/'] := by
      unfold slashed
      split
      next h => exact (List.getLast?_eq_some_iff.mp (by simpa [hbase] using h)).imp fun _ => id
      next => exact ⟨base, rfl⟩
    refine ⟨splitOn '/' s, fun m hm => ?_⟩
    rw [join_eq_slashed hm, hs, List.append_assoc]
    exact splitOn_append_cons '/' s m

theorem exists_text_dropWhile (m : Path) : ∃ v, m = v ++ joinWith ['/'] ((splitOn '/' m).dropWhile isIdle) := by
  have hsegments : (splitOn '/' m).takeWhile isIdle ++ (splitOn '/' m).dropWhile isIdle = splitOn '/' m :=
    List.takeWhile_append_dropWhile
  by_cases htaken : (splitOn '/' m).takeWhile isIdle = []
  · rw [htaken, List.nil_append] at hsegments
    exact ⟨[], by rw [hsegments, joinWith_splitOn, List.nil_append]⟩
  · by_cases hrest : (splitOn '/' m).dropWhile isIdle = []
    · exact ⟨m, by rw [hrest, joinWith, List.append_nil]⟩
    · have hjoin := joinWith_append ['/'] htaken hrest
      rw [hsegments, joinWith_splitOn] at hjoin
      exact ⟨_, hjoin⟩

theorem relative_join (hm : m.isAbsolute = false) (base : Path) :
    (base.join m).relative base = if base = [] then m else joinWith ['/'] ((splitOn '/' m).dropWhile isIdle) := by
  unfold relative
  by_cases hbase : base = []
  · subst hbase
    rw [below?_nil, nil_join, if_pos rfl, Option.getD_some]
  · rw [below?_join hm hbase, if_neg hbase, Option.getD_some]

end Path

theorem Text.byteSize_append (s t : Text) : Text.byteSize (s ++ t) = s.byteSize + t.byteSize := by
  induction s with
  | nil => simp [byteSize]
  | cons c s ih =>
    have hcons (u : Text) : byteSize (c :: u) = c.utf8Size + u.byteSize := rfl
    rw [List.cons_append, hcons, hcons, ih, Nat.add_assoc]

namespace FileTree

open WorkspaceRelease.Path Text

variable {files : FileTree} {l l' : Location}

theorem step_idle {segment : Text} (h : isIdle segment = true) (hstep : files.step l segment = .ok l') : l' = l := by
  unfold step at hstep
  split at hstep
  · contradiction
  · split at hstep
    · exact (Except.ok.inj hstep).symm
    · contradiction
  · rw [if_pos h] at hstep
    exact (Except.ok.inj hstep).symm

theorem foldlM_step_dropWhile {segments : List Text} (h : segments.foldlM files.step l = .ok l') :
    (segments.dropWhile isIdle).foldlM files.step l = .ok l' := by
  induction segments generalizing l with
  | nil => exact h
  | cons x xs ih =>
    cases hx : isIdle x with
    | true =>
      rw [List.dropWhile_cons_of_pos hx]
      obtain ⟨l₁, hstep, hrest⟩ := bind_eq_ok.mp h
      obtain rfl := step_idle hx hstep
      exact ih hrest
    | false => rwa [List.dropWhile_cons_of_neg (by simp [hx])]

theorem resolve_eq_ok {cwd : Location} {p : Path} : files.resolve cwd p = .ok l ↔
    '\x00' ∉ p ∧ p ≠ [] ∧ p.byteSize ≤ pathLimit ∧
      (splitOn '/' p).foldlM files.step (Path.origin cwd p) = .ok l := by
  unfold resolve
  split
  next h => simp_all
  next hnul =>
    split
    next h => simp_all
    next hne =>
      split
      next h => simp [Nat.not_le.mpr h]
      next h => simp_all

/-- A walk that reaches its end reaches it without the segments that lead nowhere. -/
theorem resolve_relative {base m : Path} {cwd : Location} (hm : m.isAbsolute = false)
    (hsteps : (splitOn '/' m).dropWhile isIdle ≠ []) (h : files.resolve cwd (base.join m) = .ok l) :
    files.resolve cwd (base.join ((base.join m).relative base)) = .ok l := by
  by_cases hbase : base = []
  · subst hbase
    rwa [relative_join hm, if_pos rfl]
  · have hslash (x : Text) (hx : x ∈ (splitOn '/' m).dropWhile isIdle) : '/' ∉ x :=
      not_mem_of_mem_splitOn ((List.dropWhile_sublist _).subset hx)
    have hhead (x : Text) (hx : ((splitOn '/' m).dropWhile isIdle).head? = some x) : isIdle x = false := by
      simpa [hx] using List.head?_dropWhile_not isIdle (splitOn '/' m)
    obtain ⟨hr, -, -⟩ := components_joinWith hslash hhead
    obtain ⟨v, hv⟩ := exists_text_dropWhile m
    obtain ⟨front, hfront⟩ := exists_splitOn_join base
    have horigin : Path.origin cwd (base.join m) = Path.origin cwd base := by
      rw [Path.origin, isAbsolute_join hm, Path.origin]
    rw [resolve_eq_ok, horigin, hfront m hm, List.foldlM_append, bind_eq_ok, join_eq_slashed hm] at h
    obtain ⟨hnul, -, hsize, l₁, hfirst, hrest⟩ := h
    rw [relative_join hm, if_neg hbase, resolve_eq_ok, Path.origin, isAbsolute_join hr, hfront _ hr, List.foldlM_append,
      splitOn_joinWith hsteps hslash, join_eq_slashed hr]
    refine ⟨?_, ?_, ?_, bind_eq_ok.mpr ⟨l₁, hfirst, foldlM_step_dropWhile hrest⟩⟩
    · intro hmem
      apply hnul
      rw [hv]
      rcases List.mem_append.mp hmem with hmem | hmem
      · exact List.mem_append_left _ hmem
      · exact List.mem_append_right _ (List.mem_append_right v hmem)
    · intro hnil
      have hslashed : base.slashed = [] := (List.append_eq_nil_iff.mp hnil).1
      unfold slashed at hslashed
      split at hslashed
      · exact hbase hslashed
      · simp at hslashed
    · have htext := congrArg byteSize hv
      rw [byteSize_append] at htext hsize ⊢
      omega

end FileTree

/-- What the path that is printed for a member says of the manifest that is stamped. Where the member is no absolute
path, the workspace is taken off. -/
structure Points (workspace m p r : Path) : Prop where
  components : (workspace.join r).components = p.components
  stripped : m.isAbsolute = false → p.below? workspace = some r
  below : m.isAbsolute = false → p.components = workspace.components ++ r.components
  shortened : m.isAbsolute = false → workspace ≠ [] → r ≠ p
  location : m.isAbsolute = false → ∀ (files : FileTree) cwd l, files.resolve cwd p = .ok l →
    files.resolve cwd (workspace.join r) = .ok l

theorem points_relative (workspace m : Path) : Points workspace m ((workspace.join m).join manifestFile)
    (((workspace.join m).join manifestFile).relative workspace) := by
  have hfile : Path.isAbsolute manifestFile = false := rfl
  have habsolute : (m.join manifestFile).isAbsolute = m.isAbsolute := Path.isAbsolute_join hfile m
  rw [Path.join_assoc]
  have hstripped (hm : m.isAbsolute = false) : (workspace.join (m.join manifestFile)).below? workspace =
      some ((workspace.join (m.join manifestFile)).relative workspace) := by
    by_cases hworkspace : workspace = []
    · subst hworkspace
      rfl
    · rw [Path.relative, Path.below?_join (habsolute.trans hm) hworkspace, Option.getD_some]
  have hbelow (hm : m.isAbsolute = false) := (Path.components_of_below? (hstripped hm)).1
  constructor
  case components =>
    cases h : (workspace.join (m.join manifestFile)).below? workspace with
    | some r => rw [Path.relative, h, Option.getD_some, (Path.components_of_below? h).2]
    | none =>
      have hm : m.isAbsolute = true := by
        cases hm : m.isAbsolute with
        | true => rfl
        | false => simp [hstripped hm] at h
      have hjoin := Path.join_of_isAbsolute (habsolute.trans hm) workspace
      rw [Path.relative, h, Option.getD_none, hjoin, hjoin]
  case stripped => exact hstripped
  case below => exact hbelow
  case shortened =>
    intro hm hworkspace heq
    have hcomponents := hbelow hm
    rw [heq] at hcomponents
    have hnil : workspace.components = [] := by simpa using hcomponents
    exact Path.components_ne_nil hworkspace hnil
  case location =>
    intro hm files cwd l hl
    apply FileTree.resolve_relative (habsolute.trans hm) _ hl
    obtain ⟨front, hfront⟩ := Path.exists_splitOn_join m
    intro hidle
    have hname : manifestFile ∈ Text.splitOn '/' (m.join manifestFile) := by
      rw [hfront _ hfile]
      exact List.mem_append_right front (List.mem_singleton.mpr rfl)
    exact absurd (List.dropWhile_eq_nil_iff.mp hidle _ hname) (by decide)

/-- Stamping a member prints one line, and the path at its end points to the one manifest that is read, written and
changed. -/
theorem stampMember_points (c : Config) (version : Text) (m : Path) (w : World σ) : ∃ r events,
    Points c.workspace m ((c.workspace.join m).join manifestFile) r ∧
    ((stampMember c version ((c.workspace.join m).join manifestFile)).runIn w).2.trace = w.trace ++ events ∧
    printedIn events = [paint w.painted .greenBold "setting version".toList ++ " v".toList ++ version ++
      " for ".toList ++ r ++ ['\n']] ∧
    Handles ((c.workspace.join m).join manifestFile) events ∧
    ∀ l, ((stampMember c version ((c.workspace.join m).join manifestFile)).runIn w).2.files.lookup l ≠
      w.files.lookup l → w.files.resolve w.cwd ((c.workspace.join m).join manifestFile) = .ok l := by
  obtain ⟨events, hevents, hhandles, hrun⟩ :=
    runIn_stampMember c version ((c.workspace.join m).join manifestFile) w
  refine ⟨_, events, points_relative c.workspace m, by rw [hrun]; rfl, hevents.printed, hhandles, fun l hl => ?_⟩
  rw [hrun] at hl
  exact resolve_of_stampFile hl

theorem stampMember_points_dotted : ∃ events, printedIn events = ["setting version v1 for a//b/Cargo.toml\n".toList] ∧
    Points "ws/.".toList "./a//b".toList "ws/././a//b/Cargo.toml".toList "a//b/Cargo.toml".toList ∧
    Handles "ws/././a//b/Cargo.toml".toList events := by
  have hmember : Path.isAbsolute "./a//b".toList = false := rfl
  obtain ⟨r, events, hpoints, -, hprinted, hhandles, -⟩ :=
    stampMember_points { workspace := "ws/.".toList } ['1'] "./a//b".toList (.fresh {})
  have hbelow : Path.below? "ws/././a//b/Cargo.toml".toList "ws/.".toList = some "a//b/Cargo.toml".toList := by decide
  obtain rfl := Option.some.inj ((hpoints.stripped hmember).symm.trans hbelow)
  exact ⟨events, hprinted, hpoints, hhandles⟩

end WorkspaceRelease

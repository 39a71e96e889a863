import WorkspaceRelease.Config
import WorkspaceRelease.Proofs.DataFiles
import WorkspaceRelease.Proofs.Text

/-!
How the data files of a release may be written. Each text of the publish order is a rendering of the one list that
is read from it, and the version is what stands between the blank at the ends of its file.
-/

namespace WorkspaceRelease

open Text

variable {σ : Type}

/-- A version in its file, with any blank around it. -/
structure VersionText (version t : Text) : Prop where
  nonempty : version ≠ []
  trimmed : Trimmed version
  around : ∃ before after, Blank before ∧ Blank after ∧ t = before ++ version ++ after

structure IsPackageName (name : Text) : Prop where
  nonempty : name ≠ []
  trimmed : Trimmed name
  noComment : name.head? ≠ some '#'
  oneLine : '\n' ∉ name

/-- Blank within one line. -/
def Indent (t : Text) : Prop := Blank t ∧ '\n' ∉ t

/-- A line of the publish order without its end, with the package that it names. -/
inductive OrderLine : Option Text → Text → Prop
  | package {before name after : Text} : Indent before → IsPackageName name → Indent after →
    OrderLine (some name) (before ++ name ++ after)
  | blank {indent : Text} : Indent indent → OrderLine none indent
  | comment {indent t : Text} : Indent indent → '\n' ∉ t → OrderLine none (indent ++ '#' :: t)

def lineEnds : List Text := [['\n'], ['\r', '\n']]

/-- A text of the publish order, with the packages that it names. Only the last line may do without a line end. -/
inductive OrderText : List Text → Text → Prop
  | last {name? : Option Text} {line : Text} : OrderLine name? line → OrderText name?.toList line
  | line {name? : Option Text} {names : List Text} {line ending rest : Text} : OrderLine name? line →
    ending ∈ lineEnds → OrderText names rest → OrderText (name?.toList ++ names) (line ++ ending ++ rest)

theorem versionIn?_eq_some_iff {t version : Text} : versionIn? t = some version ↔ VersionText version t := by
  rw [versionIn?_eq_some, trim_eq_iff]
  constructor
  · rintro ⟨⟨htrimmed, haround⟩, hne⟩
    exact ⟨hne, htrimmed, haround⟩
  · rintro ⟨hne, htrimmed, haround⟩
    exact ⟨⟨htrimmed, haround⟩, hne⟩

section Lines

variable {name? : Option Text} {line rest : Text}

/-- The package that a line names. -/
def named? (line : Text) : Option Text := if isPackageLine line.trim then some line.trim else none

theorem isPackageLine_iff {t : Text} : isPackageLine t = true ↔ t ≠ [] ∧ t.head? ≠ some '#' := by
  simp [isPackageLine]

theorem OrderLine.named?_eq (h : OrderLine name? line) : named? line = name? := by
  cases h with
  | package hbefore hname hafter =>
    have htrim := trim_append hbefore.1 hafter.1
    rw [named?, htrim, trim_of_trimmed hname.trimmed]
    exact if_pos (isPackageLine_iff.mpr ⟨hname.nonempty, hname.noComment⟩)
  | blank hindent =>
    rw [named?, trim_eq_nil_iff.mpr hindent.1]
    rfl
  | comment hindent ht =>
    rw [named?, trim_append_left hindent.1, trim_cons rfl]
    rfl

theorem OrderLine.oneLine (h : OrderLine name? line) : '\n' ∉ line := by
  cases h with
  | package hbefore hname hafter => simp [hbefore.2, hname.oneLine, hafter.2]
  | blank hindent => exact hindent.2
  | comment hindent ht => simp [hindent.2, ht]

theorem orderLine_named? (h : '\n' ∉ line) : OrderLine (named? line) line := by
  obtain ⟨before, after, hbefore, hafter, hline⟩ := exists_around_trim line
  have hbefore : Indent before := ⟨hbefore, fun hmem => h (by rw [hline]; simp [hmem])⟩
  have hafter : Indent after := ⟨hafter, fun hmem => h (by rw [hline]; simp [hmem])⟩
  have htrim : '\n' ∉ line.trim := fun hmem => h (by rw [hline]; simp [hmem])
  by_cases hpackage : isPackageLine line.trim = true
  · obtain ⟨hne, hhash⟩ := isPackageLine_iff.mp hpackage
    have hsome : named? line = some line.trim := if_pos hpackage
    have hname := OrderLine.package hbefore ⟨hne, trimmed_trim line, hhash, htrim⟩ hafter
    rwa [← hline, ← hsome] at hname
  · have hnone : named? line = none := if_neg hpackage
    rw [hnone]
    cases hhead : line.trim with
    | nil => exact .blank ⟨trim_eq_nil_iff.mp hhead, h⟩
    | cons c u =>
      obtain rfl : c = '#' := by simpa [isPackageLine_iff, hhead] using hpackage
      rw [hhead] at hline htrim
      have hcomment := OrderLine.comment (t := u ++ after) hbefore (by simpa [hafter.2] using htrim)
      rwa [hline, List.append_assoc, List.cons_append]

theorem filterMap_named?_cons (line : Text) (lines : List Text) :
    (line :: lines).filterMap named? = (named? line).toList ++ lines.filterMap named? := by
  cases h : named? line <;> simp [h]

end Lines

section Order

variable {names : List Text} {t : Text}

theorem filter_trim_eq (lines : List Text) : (lines.map trim).filter isPackageLine = lines.filterMap named? := by
  induction lines with
  | nil => rfl
  | cons line lines ih =>
    rw [filterMap_named?_cons, ← ih, named?]
    by_cases h : isPackageLine line.trim = true <;> simp [h]

/-- The carriage return of a line end is blank, and so is a last line that is empty. -/
theorem publishOrderIn_eq (t : Text) : publishOrderIn t = (splitOn '\n' t).filterMap named? := by
  obtain ⟨init, last, hpieces⟩ : ∃ init last, splitOn '\n' t = init ++ [last] := by
    obtain hnil | ⟨init, last, hpieces⟩ := List.eq_nil_or_concat (splitOn '\n' t)
    · exact absurd hnil (splitOn_ne_nil '\n' t)
    · exact ⟨init, last, by rw [hpieces, List.concat_eq_append]⟩
  have hlines : t.lines = init.map dropReturn ++ [last].filter fun line => !line.isEmpty := by
    simp [lines, hpieces]
  have hreturns : (init.map dropReturn).filterMap named? = init.filterMap named? := by
    have hnamed (line : Text) : named? (dropReturn line) = named? line := by simp only [named?, trim_dropReturn]
    simp only [List.filterMap_map, Function.comp_def, hnamed]
  have hlast : ([last].filter fun line => !line.isEmpty).filterMap named? = [last].filterMap named? := by
    cases last <;> rfl
  rw [publishOrderIn, filter_trim_eq, hlines, List.filterMap_append, hreturns, hlast, hpieces, List.filterMap_append]

theorem orderText_joinWith {lines : List Text} (hne : lines ≠ []) (h : ∀ line ∈ lines, '\n' ∉ line) :
    OrderText (lines.filterMap named?) (joinWith ['\n'] lines) := by
  induction lines with
  | nil => exact absurd rfl hne
  | cons line lines ih =>
    obtain ⟨hline, hlines⟩ := List.forall_mem_cons.mp h
    rw [filterMap_named?_cons]
    cases lines with
    | nil =>
      rw [List.filterMap_nil, List.append_nil]
      exact .last (orderLine_named? hline)
    | cons next rest => exact .line (orderLine_named? hline) List.mem_cons_self (ih (by simp) hlines)

theorem OrderText.filterMap_splitOn (h : OrderText names t) : (splitOn '\n' t).filterMap named? = names := by
  induction h with
  | last hline => rw [splitOn_of_not_mem hline.oneLine, filterMap_named?_cons, hline.named?_eq, List.filterMap_nil,
      List.append_nil]
  | @line name? names line ending rest hline hending _ ih =>
    obtain ⟨back, hback, hblank⟩ : ∃ back, line ++ ending ++ rest = line ++ back ++ '\n' :: rest ∧ Indent back := by
      rcases List.mem_pair.mp hending with rfl | rfl
      · exact ⟨[], by simp, by simp [Indent, Blank]⟩
      · exact ⟨['\r'], by simp, by simp [Indent, Blank, isBlank, blankRanges]⟩
    have hone : '\n' ∉ line ++ back := by simp [hline.oneLine, hblank.2]
    have hnamed : named? (line ++ back) = name? := by
      rw [named?, trim_append_right hblank.1]
      exact hline.named?_eq
    rw [hback, splitOn_append hone, filterMap_named?_cons, hnamed, ih]

theorem publishOrderIn_eq_iff : publishOrderIn t = names ↔ OrderText names t := by
  rw [publishOrderIn_eq]
  constructor
  · rintro rfl
    have htext := orderText_joinWith (splitOn_ne_nil '\n' t) fun line hline => not_mem_of_mem_splitOn hline
    rwa [joinWith_splitOn] at htext
  · exact OrderText.filterMap_splitOn

theorem OrderLine.isPackageName {name : Text} {line : Text} (h : OrderLine (some name) line) : IsPackageName name := by
  cases h with
  | package _ hname _ => exact hname

theorem OrderText.isPackageName (h : OrderText names t) : ∀ name ∈ names, IsPackageName name := by
  induction h with
  | last hline =>
    intro name hname
    obtain rfl := Option.mem_toList.mp hname
    exact hline.isPackageName
  | line hline _ _ ih =>
    intro name hname
    rcases List.mem_append.mp hname with hname | hname
    · obtain rfl := Option.mem_toList.mp hname
      exact hline.isPackageName
    · exact ih name hname

end Order

/-- How a version file with the given text is loaded. -/
structure VersionLoaded (path : Path) (t : Text) (result : Except ReleaseError Text) : Prop where
  returns : ∀ version, result = .ok version ↔ VersionText version t
  fails : (∃ e, result = .error e) ↔ Blank t
  empty : Blank t → result = .error (.emptyVersion path)

/-- How an order file with the given text is loaded. -/
structure OrderLoaded (t : Text) (result : Except ReleaseError (List Text)) : Prop where
  returns : ∀ names, result = .ok names ↔ OrderText names t
  names : ∃ names, result = .ok names ∧ ∀ name ∈ names, IsPackageName name

theorem versionLoaded {files : FileTree} {cwd : Location} {workspace : Path} {t : Text}
    (h : files.readText cwd (workspace.join versionFile) = .ok t) :
    VersionLoaded (workspace.join versionFile) t (versionOf files cwd workspace) := by
  simp only [versionOf, h]
  cases hv : versionIn? t with
  | none =>
    have hblank : Blank t := trim_eq_nil_iff.mp (versionIn?_eq_none.mp hv)
    refine ⟨fun version => ?_, by simp [hblank], fun _ => rfl⟩
    rw [← versionIn?_eq_some_iff, hv]
    simp
  | some version =>
    have hblank : ¬Blank t := by
      rw [← trim_eq_nil_iff, ← versionIn?_eq_none, hv]
      simp
    refine ⟨fun version' => ?_, by simp [hblank], fun h => absurd h hblank⟩
    rw [← versionIn?_eq_some_iff, hv]
    simp

theorem load_renderings (workspace : Path) (w : World σ) :
    (∀ t, w.files.readText w.cwd (workspace.join versionFile) = .ok t →
      VersionLoaded (workspace.join versionFile) t ((loadVersion workspace).runIn w).1) ∧
    (∀ t, w.files.readText w.cwd (workspace.join publishOrderFile) = .ok t →
      OrderLoaded t ((loadPublishOrder workspace).runIn w).1) := by
  constructor
  · intro t ht
    obtain ⟨_, -, hrun⟩ := runIn_loadVersion workspace w
    rw [hrun]
    exact versionLoaded ht
  · intro t ht
    obtain ⟨_, -, hrun⟩ := runIn_loadPublishOrder workspace w
    have hresult : ((loadPublishOrder workspace).runIn w).1 = .ok (publishOrderIn t) := by
      rw [hrun]
      simp only [publishOrderOf, ht]
    rw [hresult]
    refine ⟨fun names => ?_, _, rfl, (publishOrderIn_eq_iff.mp rfl).isPackageName⟩
    rw [Except.ok.injEq, publishOrderIn_eq_iff]

/-- Line ends of both kinds, lone carriage returns, indented comments and separators of other alphabets. -/
def renderedWorld : World Unit :=
  .fresh { entries :=
    [(["version.txt".toList], .file (.text "\u2028 \t1.0 beta\u0085\r\n".toList)),
      (["publish-order.txt".toList],
        .file (.text "\r\n \t# later\r\n\u3000ena_b\t\r\n\x0b\nena a\n#ena_c\n\u0085ena_b\r".toList))] }

theorem load_renderings_mixed :
    ((loadVersion defaultWorkspace).runIn renderedWorld).1 = .ok "1.0 beta".toList ∧
      ((loadPublishOrder defaultWorkspace).runIn renderedWorld).1 =
        .ok ["ena_b".toList, "ena a".toList, "ena_b".toList] := by
  obtain ⟨hversion, horder⟩ := load_renderings defaultWorkspace renderedWorld
  constructor
  · exact ((hversion _ rfl).returns _).mpr (versionIn?_eq_some_iff.mp (by decide))
  · exact ((horder _ rfl).returns _).mpr (publishOrderIn_eq_iff.mp (by decide))

end WorkspaceRelease

import Mathlib.Data.List.Nodup
import WorkspaceRelease.Proofs.CommandLine.Words
import WorkspaceRelease.Proofs.Except

/-!
A command line that is accepted is a list of arguments, each an option in one of its spellings, with at most two
dashes at the end. What is given is what the arguments say, in whatever order they stand.
-/

namespace WorkspaceRelease.CommandLine

inductive Argument where
  | flag (f : Flag)
  | letter
  /-- An option and its value in one word. -/
  | joined (o : ValueOption) (value : Text)
  | separate (o : ValueOption) (value : Text)
  deriving DecidableEq, Repr

namespace Argument

def words : Argument → List Text
  | flag f => [f.name]
  | letter => [verboseLetter]
  | joined o value => [o.name ++ '=' :: value]
  | separate o value => [o.name, value]

def option : Argument → Switch
  | flag f => .flag f
  | letter => .flag .verbose
  | joined o _ | separate o _ => .value o

def flag? : Argument → Option Flag
  | flag f => some f
  | letter => some .verbose
  | joined _ _ | separate _ _ => none

def value? (o : ValueOption) : Argument → Option Text
  | joined o' value | separate o' value => if o' = o then some value else none
  | _ => none

def Plain : Argument → Prop
  | separate _ value => IsPlain value
  | _ => True

end Argument

def Given.take (g : Given) : Argument → Except Refusal Given
  | .flag f => g.raise f
  | .letter => g.raise .verbose
  | .joined o value | .separate o value => g.store o value

/-- The words of some arguments, up to dashes that end the options. -/
def Writes (args : List Argument) (words : List Text) : Prop :=
  words = args.flatMap Argument.words ∨ words = args.flatMap Argument.words ++ [dashes]

section Step

variable {g g' : Given} {o : ValueOption} {t value : Text} {words : List Text}

theorem letter?_eq_inl {c : Char} {f : Flag} : letter? c = some (.inl f) ↔ c = 'v' ∧ f = .verbose := by
  unfold letter?
  split
  next hc => simp [hc, eq_comm]
  next hc =>
    have hne (h : c = 'v' ∧ f = .verbose) : False := hc h.1
    split
    · simpa using hne
    · split <;> simpa using hne

theorem raise_eq_ok {f : Flag} : g.raise f = .ok g' ↔ f ∉ g.flags ∧ g' = { g with flags := f :: g.flags } := by
  unfold Given.raise
  split
  next h =>
    have hmem : f ∈ g.flags := List.contains_iff_mem.mp h
    simp [hmem]
  next h =>
    have hmem : f ∉ g.flags := fun hmem => h (List.contains_iff_mem.mpr hmem)
    simp [hmem, eq_comm]

theorem raiseLetters_eq_ok {c : Char} {s : Text} :
    g.raiseLetters (c :: s) = .ok g' ↔ c :: s = ['v'] ∧ g.raise .verbose = .ok g' := by
  constructor
  · intro h
    rw [Given.raiseLetters] at h
    split at h
    next f hc =>
      obtain ⟨rfl, rfl⟩ := letter?_eq_inl.mp hc
      obtain ⟨g₁, hraise, h⟩ := bind_eq_ok.mp h
      cases s with
      | nil =>
        obtain rfl := Except.ok.inj h
        exact ⟨rfl, hraise⟩
      | cons d s =>
        -- a second letter could only be the same one again
        rw [Given.raiseLetters] at h
        split at h
        next f hd =>
          obtain ⟨-, rfl⟩ := letter?_eq_inl.mp hd
          obtain ⟨g₂, hagain, -⟩ := bind_eq_ok.mp h
          obtain ⟨-, rfl⟩ := raise_eq_ok.mp hraise
          exact absurd List.mem_cons_self (raise_eq_ok.mp hagain).1
        · contradiction
        · contradiction
    · contradiction
    · contradiction
  · rintro ⟨heq, hraise⟩
    rw [heq]
    exact bind_eq_ok.mpr ⟨g', hraise, rfl⟩

/-- A word that is no value first settles the option before it, and is then read as if there were none. -/
theorem readWords_settle {pending : Option Pending} {ts : List Text} (h : ¬IsPlain t) :
    readWords g pending (t :: ts) = .ok g' ↔
      ∃ g₁, g.settle pending = .ok g₁ ∧ readWords g₁ none (t :: ts) = .ok g' := by
  have hnone (g : Given) : g.settle none = .ok g := rfl
  cases hword : Word.ofText t with
  | dashes => cases ts <;> simp [readWords, hword, hnone]
  | plain u => exact absurd (isPlain_of_ofText hword) h
  | letters cs =>
    cases cs with
    | nil => simp [readWords, hword]
    | cons c s =>
      cases hc : letter? c with
      | none => simp [readWords, hword, hc]
      | some l => simp [readWords, hword, hc, bind_eq_ok, hnone]
  | long name value? =>
    cases hname : switch? name with
    | none => simp [readWords, hword, hname]
    | some s => cases s <;> cases value? <;> simp [readWords, hword, hname, bind_eq_ok, hnone]

theorem readWords_held : readWords g (some ⟨o, some value⟩) words = .ok g' ↔
    ∃ g₁, g.store o value = .ok g₁ ∧ readWords g₁ none words = .ok g' := by
  cases words with
  | nil => simp [readWords, Given.settle]
  | cons t ts =>
    by_cases h : IsPlain t
    · simp [readWords, ofText_of_isPlain h]
    · exact readWords_settle h

theorem readWords_waiting : readWords g (some ⟨o, none⟩) words = .ok g' ↔
    ∃ value rest, words = value :: rest ∧ IsPlain value ∧ readWords g (some ⟨o, some value⟩) rest = .ok g' := by
  cases words with
  | nil => simp [readWords, Given.settle]
  | cons t ts =>
    by_cases h : IsPlain t
    · simp [readWords, ofText_of_isPlain h, h]
    · rw [readWords_settle h]
      simp [Given.settle, h]

theorem readWords_arg {arg : Argument} (hplain : arg.Plain) : readWords g none (arg.words ++ words) = .ok g' ↔
    ∃ g₁, g.take arg = .ok g₁ ∧ readWords g₁ none words = .ok g' := by
  have hnone (g : Given) : g.settle none = .ok g := rfl
  cases arg with
  | flag f =>
    have hword : Word.ofText f.name = .long f.name none := ofText_name (.flag f)
    have hname : switch? f.name = some (.flag f) := switch?_name (.flag f)
    simp [Argument.words, readWords, hword, hname, bind_eq_ok, hnone, Given.take]
  | letter =>
    have hword : Word.ofText verboseLetter = .letters ['v'] := rfl
    have hletter : letter? 'v' = some (.inl .verbose) := rfl
    simp [Argument.words, readWords, hword, hletter, bind_eq_ok, hnone, Given.take, raiseLetters_eq_ok]
  | joined o value =>
    have hword : Word.ofText (o.name ++ '=' :: value) = .long o.name (some value) := ofText_joined (.value o) value
    have hname : switch? o.name = some (.value o) := switch?_name (.value o)
    simp [Argument.words, readWords, hword, hname, bind_eq_ok, hnone, Given.take]
  | separate o value =>
    have hword : Word.ofText o.name = .long o.name none := ofText_name (.value o)
    have hname : switch? o.name = some (.value o) := switch?_name (.value o)
    have hwait (ts : List Text) : readWords g none (o.name :: ts) = readWords g (some ⟨o, none⟩) ts := by
      simp only [readWords, hword, hname, hnone]
      rfl
    have hvalue : IsPlain value := hplain
    simp [Argument.words, hwait, readWords_waiting, hvalue, readWords_held, Given.take]

theorem exists_arg_of_readWords {ts : List Text} (h : readWords g none (t :: ts) = .ok g') (hdashes : t ≠ dashes) :
    ∃ (arg : Argument) (rest : List Text), t :: ts = arg.words ++ rest ∧ arg.Plain := by
  have htext := text_ofText t
  unfold readWords at h
  cases hword : Word.ofText t with
  | dashes =>
    rw [hword] at htext
    exact absurd htext.symm hdashes
  | plain u => simp [hword] at h
  | letters cs =>
    rw [hword] at htext h
    cases cs with
    | nil => contradiction
    | cons c s =>
      simp only at h
      split at h
      · contradiction
      · obtain ⟨g₁, -, h⟩ := bind_eq_ok.mp h
        obtain ⟨g₂, hletters, -⟩ := bind_eq_ok.mp h
        obtain ⟨heq, -⟩ := raiseLetters_eq_ok.mp hletters
        refine ⟨.letter, ts, ?_, trivial⟩
        rw [← htext, heq]
        rfl
  | long name value? =>
    rw [hword] at htext h
    simp only at h
    split at h
    · contradiction
    next o value hname =>
      obtain rfl : o.name = name := name_of_switch? hname
      exact ⟨.joined o value, ts, by rw [← htext]; rfl, trivial⟩
    next o hname =>
      obtain rfl : o.name = name := name_of_switch? hname
      obtain ⟨g₁, -, h⟩ := bind_eq_ok.mp h
      obtain ⟨value, rest, rfl, hplain, -⟩ := readWords_waiting.mp h
      exact ⟨.separate o value, rest, by rw [← htext]; rfl, hplain⟩
    · contradiction
    next f hname =>
      obtain rfl : f.name = name := name_of_switch? hname
      exact ⟨.flag f, ts, by rw [← htext]; rfl, trivial⟩
    · obtain ⟨g₁, -, h⟩ := bind_eq_ok.mp h
      contradiction

theorem readWords_dashes {ts : List Text} : readWords g none (dashes :: ts) = .ok g' ↔ ts = [] ∧ g' = g := by
  have hword : Word.ofText dashes = .dashes := rfl
  cases ts <;> simp [readWords, hword, Given.settle, eq_comm]

end Step

section Run

variable {g g' : Given} {arg : Argument} {args : List Argument} {words : List Text}

theorem words_length_pos (arg : Argument) : 0 < arg.words.length := by
  cases arg <;> exact Nat.succ_pos _

theorem writes_cons : Writes (arg :: args) words ↔ ∃ rest, words = arg.words ++ rest ∧ Writes args rest := by
  simp only [Writes, List.flatMap_cons, List.append_assoc]
  constructor
  · rintro (rfl | rfl)
    · exact ⟨_, rfl, .inl rfl⟩
    · exact ⟨_, rfl, .inr rfl⟩
  · rintro ⟨rest, rfl, rfl | rfl⟩
    · exact .inl rfl
    · exact .inr rfl

theorem exists_args_of_readWords (h : readWords g none words = .ok g') :
    ∃ args, Writes args words ∧ (∀ arg ∈ args, arg.Plain) ∧ args.foldlM Given.take g = .ok g' := by
  -- an argument takes one word or two
  induction hlength : words.length using Nat.strong_induction_on generalizing g words with
  | _ n ih =>
    cases words with
    | nil => exact ⟨[], .inl rfl, by simp, h⟩
    | cons t ts =>
      by_cases hdashes : t = dashes
      · subst hdashes
        obtain ⟨rfl, rfl⟩ := readWords_dashes.mp h
        exact ⟨[], .inr rfl, by simp, rfl⟩
      · obtain ⟨arg, rest, heq, hplain⟩ := exists_arg_of_readWords h hdashes
        rw [heq, readWords_arg hplain] at h
        obtain ⟨g₁, htake, h⟩ := h
        have hshorter : rest.length < n := by
          have hpos := words_length_pos arg
          rw [← hlength, heq, List.length_append]
          omega
        obtain ⟨args, hwrites, hplains, hrun⟩ := ih rest.length hshorter h rfl
        refine ⟨arg :: args, writes_cons.mpr ⟨rest, heq, hwrites⟩, List.forall_mem_cons.mpr ⟨hplain, hplains⟩, ?_⟩
        rw [List.foldlM_cons]
        exact bind_eq_ok.mpr ⟨g₁, htake, hrun⟩

theorem readWords_of_args (hwrites : Writes args words) (hplain : ∀ arg ∈ args, arg.Plain)
    (hrun : args.foldlM Given.take g = .ok g') : readWords g none words = .ok g' := by
  induction args generalizing g words with
  | nil =>
    obtain rfl := Except.ok.inj hrun
    rcases hwrites with rfl | rfl
    · rfl
    · exact readWords_dashes.mpr ⟨rfl, rfl⟩
  | cons arg args ih =>
    obtain ⟨rest, rfl, hrest⟩ := writes_cons.mp hwrites
    obtain ⟨hfirst, hplain⟩ := List.forall_mem_cons.mp hplain
    rw [List.foldlM_cons] at hrun
    obtain ⟨g₁, htake, hrun⟩ := bind_eq_ok.mp hrun
    exact (readWords_arg hfirst).mpr ⟨g₁, htake, ih hrest hplain hrun⟩

theorem readWords_eq_ok : readWords g none words = .ok g' ↔
    ∃ args, Writes args words ∧ (∀ arg ∈ args, arg.Plain) ∧ args.foldlM Given.take g = .ok g' := by
  constructor
  · exact exists_args_of_readWords
  · rintro ⟨args, hwrites, hplain, hrun⟩
    exact readWords_of_args hwrites hplain hrun

end Run

/-- What some arguments give, each of them once. -/
def Given.of (args : List Argument) : Given where
  flags := (args.filterMap Argument.flag?).reverse
  family := args.findSome? (Argument.value? .family)
  workspace := args.findSome? (Argument.value? .workspace)

section Given

variable {g : Given} {arg : Argument} {args done : List Argument}

theorem mem_flags_of {f : Flag} : f ∈ (Given.of args).flags ↔ .flag f ∈ args.map Argument.option := by
  rw [Given.of, List.mem_reverse, List.mem_filterMap, List.mem_map]
  apply exists_congr
  intro arg
  apply and_congr_right
  intro _
  cases arg <;> simp [Argument.flag?, Argument.option]

theorem option_of_value? {o : ValueOption} {value : Text} (h : arg.value? o = some value) : arg.option = .value o := by
  cases arg with
  | flag | letter => contradiction
  | joined o' | separate o' =>
    obtain ⟨rfl, -⟩ := Option.ite_none_right_eq_some.mp h
    rfl

theorem isSome_findSome? {o : ValueOption} :
    (args.findSome? (Argument.value? o)).isSome = true ↔ .value o ∈ args.map Argument.option := by
  rw [List.findSome?_isSome_iff, List.mem_map]
  apply exists_congr
  intro arg
  apply and_congr_right
  intro _
  cases arg with
  | flag | letter => simp [Argument.value?, Argument.option]
  | joined o' | separate o' => 
    by_cases h : o' = o <;> simp [Argument.value?, Argument.option, h]

theorem of_append_singleton (done : List Argument) (arg : Argument) : Given.of (done ++ [arg]) =
    { flags := arg.flag?.toList ++ (Given.of done).flags
      family := (Given.of done).family.or (arg.value? .family)
      workspace := (Given.of done).workspace.or (arg.value? .workspace) } := by
  simp only [Given.of, List.filterMap_append, List.reverse_append, List.findSome?_append]
  cases arg <;> simp [Argument.flag?, Argument.value?]

theorem store_eq_ok {o : ValueOption} {value : Text} {g' : Given} : g.store o value = .ok g' ↔
    match o with
    | .family => g.family = none ∧ g' = { g with family := some value }
    | .workspace => g.workspace = none ∧ value ≠ [] ∧ g' = { g with workspace := some value } := by
  cases o with
  | family => cases h : g.family <;> simp [Given.store, h, eq_comm]
  | workspace => cases h : g.workspace <;> cases value <;> simp [Given.store, h, eq_comm]

theorem of_family_eq_none : (Given.of done).family = none ↔ .value .family ∉ done.map Argument.option := by
  rw [← isSome_findSome?, Option.not_isSome_iff_eq_none]
  rfl

theorem of_workspace_eq_none : (Given.of done).workspace = none ↔ .value .workspace ∉ done.map Argument.option := by
  rw [← isSome_findSome?, Option.not_isSome_iff_eq_none]
  rfl

theorem take_of : (Given.of done).take arg = .ok g ↔
    arg.option ∉ done.map Argument.option ∧ arg.value? .workspace ≠ some [] ∧ g = Given.of (done ++ [arg]) := by
  rw [of_append_singleton]
  cases arg with
  | flag f => simp [Given.take, raise_eq_ok, mem_flags_of, Argument.option, Argument.value?, Argument.flag?]
  | letter => simp [Given.take, raise_eq_ok, mem_flags_of, Argument.option, Argument.value?, Argument.flag?]
  | joined o value | separate o value =>
    cases o with
    | family =>
      simp only [Given.take, store_eq_ok, of_family_eq_none]
      apply and_congr_right
      intro hfresh
      have hnone := of_family_eq_none.mpr hfresh
      simp [Argument.value?, Argument.flag?, hnone]
    | workspace =>
      simp only [Given.take, store_eq_ok, of_workspace_eq_none]
      apply and_congr_right
      intro hfresh
      have hnone := of_workspace_eq_none.mpr hfresh
      simp [Argument.value?, Argument.flag?, hnone]

theorem nodup_append_singleton : ((done ++ [arg]).map Argument.option).Nodup ↔
    (done.map Argument.option).Nodup ∧ arg.option ∉ done.map Argument.option := by
  rw [List.map_append, List.map_singleton, List.nodup_append', List.disjoint_singleton]
  simp

theorem of_workspace_append (h : (Given.of done).workspace = some []) (args : List Argument) :
    (Given.of (done ++ args)).workspace = some [] := by
  simp only [Given.of] at h ⊢
  rw [List.findSome?_append, h, Option.some_or]

theorem run_of (done : List Argument) (hdone : (done.map Argument.option).Nodup)
    (hnamed : (Given.of done).workspace ≠ some []) :
    args.foldlM Given.take (Given.of done) = .ok g ↔
      ((done ++ args).map Argument.option).Nodup ∧ (Given.of (done ++ args)).workspace ≠ some [] ∧
        g = Given.of (done ++ args) := by
  -- what is given so far is what the arguments before say, each of them once
  induction args generalizing done with
  | nil =>
    rw [List.append_nil, List.foldlM_nil]
    constructor
    · intro h
      exact ⟨hdone, hnamed, (Except.ok.inj h).symm⟩
    · rintro ⟨-, -, rfl⟩
      rfl
  | cons arg args ih =>
    have hassoc : done ++ arg :: args = (done ++ [arg]) ++ args := by simp
    rw [List.foldlM_cons, bind_eq_ok, hassoc]
    constructor
    · rintro ⟨g₁, htake, hrun⟩
      obtain ⟨hfresh, hvalue, rfl⟩ := take_of.mp htake
      refine (ih _ (nodup_append_singleton.mpr ⟨hdone, hfresh⟩) ?_).mp hrun
      rw [of_append_singleton]
      intro h
      rcases Option.or_eq_some_iff.mp h with h | ⟨-, h⟩
      · exact hnamed h
      · exact hvalue h
    · rintro ⟨hnodup, hworkspace, rfl⟩
      have hnodup₁ : ((done ++ [arg]).map Argument.option).Nodup := by
        rw [List.map_append] at hnodup
        exact (List.nodup_append'.mp hnodup).1
      have hworkspace₁ : (Given.of (done ++ [arg])).workspace ≠ some [] := fun h =>
        hworkspace (of_workspace_append h args)
      obtain ⟨-, hfresh⟩ := nodup_append_singleton.mp hnodup₁
      refine ⟨_, take_of.mpr ⟨hfresh, ?_, rfl⟩, (ih _ hnodup₁ hworkspace₁).mpr ⟨hnodup, hworkspace, rfl⟩⟩
      intro h
      have hoption : arg.option = .value .workspace := option_of_value? h
      apply hworkspace₁
      rw [of_append_singleton, of_workspace_eq_none.mpr (hoption ▸ hfresh), h]
      rfl

end Given

def Options.has (options : Options) : Flag → Bool
  | .dry => options.config.dryRun
  | .setVersion => options.config.setVersion
  | .tag => options.config.tag
  | .publish => options.config.publish
  | .keepGoing => options.config.keepGoing
  | .verbose => options.verbose

/-- Arguments, in any order, that say what is to be done. An option that has its default value may be left out. -/
structure Spells (args : List Argument) (options : Options) : Prop where
  once : (args.map Argument.option).Nodup
  plain : ∀ o value, .separate o value ∈ args → IsPlain value
  flags : ∀ f, .flag f ∈ args.map Argument.option ↔ options.has f = true
  family : options.config.family = (args.findSome? (Argument.value? .family)).getD defaultFamily
  workspace : options.config.workspace = (args.findSome? (Argument.value? .workspace)).getD defaultWorkspace
  named : options.config.workspace ≠ []

section Spelling

variable {options : Options} {args : List Argument} {words : List Text}

theorem options_of : (Given.of args).options = options ↔
    (∀ f, .flag f ∈ args.map Argument.option ↔ options.has f = true) ∧
      options.config.family = (args.findSome? (Argument.value? .family)).getD defaultFamily ∧
      options.config.workspace = (args.findSome? (Argument.value? .workspace)).getD defaultWorkspace := by
  simp only [← mem_flags_of]
  constructor
  · rintro rfl
    refine ⟨fun f => ?_, rfl, rfl⟩
    cases f <;> exact List.contains_iff_mem.symm
  · rintro ⟨hflags, hfamily, hworkspace⟩
    have hcontains (f : Flag) : (Given.of args).flags.contains f = options.has f := by
      rw [Bool.eq_iff_iff, List.contains_iff_mem, hflags f]
    obtain ⟨⟨dry, setVersion, tag, publish, keepGoing, family, workspace⟩, verbose⟩ := options
    simp only [Given.options, hcontains, Options.has]
    congr
    · exact hfamily.symm
    · exact hworkspace.symm

theorem named_of : ((args.findSome? (Argument.value? .workspace)).getD defaultWorkspace ≠ []) ↔
    (Given.of args).workspace ≠ some [] := by
  rw [Given.of]
  cases args.findSome? (Argument.value? .workspace) with
  | none => simp [defaultWorkspace]
  | some value => simp

theorem spells_iff : Spells args options ↔ (args.map Argument.option).Nodup ∧ (∀ arg ∈ args, arg.Plain) ∧
    (Given.of args).workspace ≠ some [] ∧ (Given.of args).options = options := by
  have hplains : (∀ o value, .separate o value ∈ args → IsPlain value) ↔ ∀ arg ∈ args, arg.Plain := by
    constructor
    · intro h arg harg
      cases arg with
      | separate o value => exact h o value harg
      | flag | letter | joined => trivial
    · intro h o value harg
      exact h _ harg
  rw [options_of, ← named_of, ← hplains]
  constructor
  · rintro ⟨honce, hplain, hflags, hfamily, hworkspace, hnamed⟩
    exact ⟨honce, hplain, hworkspace ▸ hnamed, hflags, hfamily, hworkspace⟩
  · rintro ⟨honce, hplain, hnamed, hflags, hfamily, hworkspace⟩
    exact ⟨honce, hplain, hflags, hfamily, hworkspace, hworkspace ▸ hnamed⟩

theorem ofWords_eq_ok : Options.ofWords words = .ok options ↔ ∃ args, Writes args words ∧ Spells args options := by
  have hrun {g : Given} {args : List Argument} : args.foldlM Given.take {} = .ok g ↔
      (args.map Argument.option).Nodup ∧ (Given.of args).workspace ≠ some [] ∧ g = Given.of args :=
    run_of [] List.nodup_nil nofun
  simp only [Options.ofWords, map_eq_ok, readWords_eq_ok, spells_iff]
  constructor
  · rintro ⟨g, ⟨args, hwrites, hplain, htake⟩, hoptions⟩
    obtain ⟨honce, hnamed, rfl⟩ := hrun.mp htake
    exact ⟨args, hwrites, honce, hplain, hnamed, hoptions⟩
  · rintro ⟨args, hwrites, honce, hplain, hnamed, hoptions⟩
    exact ⟨_, ⟨args, hwrites, hplain, hrun.mpr ⟨honce, hnamed, rfl⟩⟩, hoptions⟩

end Spelling

end WorkspaceRelease.CommandLine

import WorkspaceRelease.CommandLine.Run
import WorkspaceRelease.Proofs.CommandLine.Arguments

/-!
A malformed command line is refused before anything is done, unless it asks a question.
-/

namespace WorkspaceRelease.CommandLine

/-- A word that is an option, with or without a value. -/
def Mentions (s : Switch) (t : Text) : Prop :=
  t = s.name ∨ s.name ++ ['='] <+: t ∨ s = .flag .verbose ∧ t = verboseLetter

instance (s : Switch) (t : Text) : Decidable (Mentions s t) := inferInstanceAs (Decidable (_ ∨ _ ∨ _ ∧ _))

inductive IsOption : Text → Prop
  | flag (f : Flag) : IsOption f.name
  | letter : IsOption verboseLetter
  | bare (o : ValueOption) : IsOption o.name
  | joined (o : ValueOption) (value : Text) : IsOption (o.name ++ '=' :: value)

/-- A word is the value of an option that stands right before it, unless it starts with a dash. -/
def IsValue (before : List Text) (t : Text) : Prop :=
  ∃ o : ValueOption, before.getLast? = some o.name ∧ IsPlain t

inductive Malformed (words : List Text) : Prop
  | repeated (s : Switch) : 2 ≤ words.countP (fun t => Mentions s t) → Malformed words
  | valued (f : Flag) (value : Text) : f.name ++ '=' :: value ∈ words → Malformed words
  | foreign {before after : List Text} {t : Text} : words = before ++ t :: after → t ≠ dashes → ¬IsOption t →
    ¬IsValue before t → Malformed words
  | trailing {before after : List Text} {t : Text} : words = before ++ dashes :: t :: after → Malformed words

/-- The question is a word of its own, or a letter after letters that are options. -/
inductive Asks : Text → Prop
  | long (q : Question) : Asks q.name
  | letter {before : Text} {c : Char} (after : Text) : (∀ b ∈ before, b = 'v') → c = 'h' ∨ c = 'V' →
    Asks ('-' :: before ++ c :: after)

section Mentions

variable {s r : Switch} {t value : Text} {arg : Argument} {args : List Argument} {words : List Text}

theorem mentions_iff : Mentions s t ↔
    match Word.ofText t with
    | .long name _ => name = s.name
    | .letters cs => s = .flag .verbose ∧ cs = ['v']
    | .dashes | .plain _ => False := by
  constructor
  · rintro (rfl | ⟨rest, rfl⟩ | ⟨rfl, rfl⟩)
    · rw [ofText_name]
    · rw [List.append_assoc, List.singleton_append, ofText_joined]
    · exact ⟨rfl, rfl⟩
  · intro h
    have htext := text_ofText t
    split at h
    next name value? hword =>
      subst h
      rw [hword] at htext
      cases value? with
      | none => exact .inl htext.symm
      | some value => exact .inr (.inl ⟨value, by rw [← htext, List.append_assoc]; rfl⟩)
    next cs hword =>
      obtain ⟨rfl, rfl⟩ := h
      rw [hword] at htext
      exact .inr (.inr ⟨rfl, htext.symm⟩)
    · contradiction
    · contradiction

theorem mentions_name : Mentions s r.name ↔ r = s := by
  rw [mentions_iff, ofText_name]
  exact name_inj

theorem mentions_joined : Mentions s (r.name ++ '=' :: value) ↔ r = s := by
  rw [mentions_iff, ofText_joined]
  exact name_inj

theorem mentions_verboseLetter : Mentions s verboseLetter ↔ .flag .verbose = s := by
  rw [mentions_iff, show Word.ofText verboseLetter = .letters ['v'] from rfl]
  simp [eq_comm]

theorem not_mentions_of_isPlain (h : IsPlain t) : ¬Mentions s t := by
  rw [mentions_iff, ofText_of_isPlain h]
  exact not_false

theorem not_mentions_dashes : ¬Mentions s dashes := by
  rw [mentions_iff, show Word.ofText dashes = .dashes from rfl]
  exact not_false

theorem countP_mentions_arg (h : arg.Plain) : arg.words.countP (fun t => Mentions s t) =
    if arg.option = s then 1 else 0 := by
  have hone {word : Text} (hword : Mentions s word ↔ arg.option = s) :
      [word].countP (fun t => Mentions s t) = if arg.option = s then 1 else 0 := by
    rw [List.countP_singleton]
    exact if_congr (decide_eq_true_iff.trans hword) rfl rfl
  cases arg with
  | flag f => exact hone (mentions_name (r := .flag f))
  | letter => exact hone mentions_verboseLetter
  | joined o value => exact hone (mentions_joined (r := .value o))
  | separate o value =>
    have hvalue : ¬Mentions s value := not_mentions_of_isPlain h
    have hcons : [o.name, value].countP (fun t => Mentions s t) = [o.name].countP (fun t => Mentions s t) := by
      simp [List.countP_cons, hvalue]
    exact hcons.trans (hone (mentions_name (r := .value o)))

theorem countP_mentions (hwrites : Writes args words) (hplain : ∀ arg ∈ args, arg.Plain) (s : Switch) :
    words.countP (fun t => Mentions s t) = (args.map Argument.option).count s := by
  induction args generalizing words with
  | nil =>
    rcases hwrites with rfl | rfl
    · rfl
    · simp [not_mentions_dashes]
  | cons arg args ih =>
    obtain ⟨rest, rfl, hrest⟩ := writes_cons.mp hwrites
    obtain ⟨hfirst, hplain⟩ := List.forall_mem_cons.mp hplain
    rw [List.countP_append, countP_mentions_arg hfirst, ih hrest hplain, List.map_cons, List.count_cons, Nat.add_comm]
    simp

end Mentions

section Positions

variable {before after words : List Text} {t : Text} {arg : Argument} {args : List Argument}

theorem isValue_append (h : IsValue before t) (first : List Text) : IsValue (first ++ before) t := by
  obtain ⟨o, hlast, hplain⟩ := h
  refine ⟨o, ?_, hplain⟩
  rw [List.getLast?_append, hlast, Option.some_or]

theorem position_arg (hplain : arg.Plain) (h : arg.words = before ++ t :: after) : IsOption t ∨ IsValue before t := by
  have hone {word : Text} (hword : IsOption word) (h : [word] = before ++ t :: after) : IsOption t := by
    have hmem : t ∈ [word] := by
      rw [h]
      simp
    rw [List.mem_singleton.mp hmem]
    exact hword
  cases arg with
  | flag f => exact .inl (hone (.flag f) h)
  | letter => exact .inl (hone .letter h)
  | joined o value => exact .inl (hone (.joined o value) h)
  | separate o value =>
    match before with
    | [] =>
      obtain ⟨rfl, -⟩ := List.cons.inj h
      exact .inl (.bare o)
    | [first] =>
      obtain ⟨rfl, hrest⟩ := List.cons.inj h
      obtain ⟨heq, -⟩ := List.cons.inj hrest
      have hvalue : IsPlain value := hplain
      exact .inr ⟨o, rfl, heq ▸ hvalue⟩
    | first :: second :: before => simp [Argument.words] at h

theorem position (hwrites : Writes args words) (hplain : ∀ arg ∈ args, arg.Plain) (h : words = before ++ t :: after) :
    IsOption t ∨ IsValue before t ∨ t = dashes ∧ after = [] := by
  induction args generalizing words before with
  | nil =>
    rcases hwrites with rfl | rfl
    · simp at h
    · cases before with
      | nil =>
        obtain ⟨rfl, hafter⟩ := List.cons.inj h
        exact .inr (.inr ⟨rfl, hafter.symm⟩)
      | cons first before => simp at h
  | cons arg args ih =>
    obtain ⟨rest, rfl, hrest⟩ := writes_cons.mp hwrites
    obtain ⟨hfirst, hplain⟩ := List.forall_mem_cons.mp hplain
    have hlater {early : List Text} (hbefore : before = arg.words ++ early) (h : rest = early ++ t :: after) :
        IsOption t ∨ IsValue before t ∨ t = dashes ∧ after = [] := by
      rcases ih hrest hplain h with hoption | hvalue | hend
      · exact .inl hoption
      · exact .inr (.inl (hbefore ▸ isValue_append hvalue arg.words))
      · exact .inr (.inr hend)
    rcases List.append_eq_append_iff.mp h with ⟨early, hbefore, hrest⟩ | ⟨late, hwords, hrest⟩
    · exact hlater hbefore hrest
    · cases late with
      | nil =>
        rw [List.append_nil] at hwords
        exact hlater (show before = arg.words ++ [] by rw [hwords, List.append_nil]) hrest.symm
      | cons u late =>
        obtain ⟨rfl, -⟩ := List.cons.inj hrest
        rcases position_arg hfirst hwords with hoption | hvalue
        · exact .inl hoption
        · exact .inr (.inl hvalue)

end Positions

section Refused

variable {words : List Text} {args : List Argument} {options : Options}

theorem ofText_of_isOption {t : Text} (h : IsOption t) : (∃ s : Switch, Word.ofText t = .long s.name none) ∨
    (∃ (o : ValueOption) (value : Text), Word.ofText t = .long o.name (some value)) ∨ Word.ofText t = .letters ['v'] := by
  cases h with
  | flag f => exact .inl ⟨.flag f, ofText_name (.flag f)⟩
  | letter => exact .inr (.inr rfl)
  | bare o => exact .inl ⟨.value o, ofText_name (.value o)⟩
  | joined o value => exact .inr (.inl ⟨o, value, ofText_joined (.value o) value⟩)

theorem not_isOption_valued (f : Flag) (value : Text) : ¬IsOption (f.name ++ '=' :: value) := by
  have hword : Word.ofText (f.name ++ '=' :: value) = .long f.name (some value) := ofText_joined (.flag f) value
  intro h
  rcases ofText_of_isOption h with ⟨s, hname⟩ | ⟨o, value', hname⟩ | hletters
  · rw [hword] at hname
    cases (Word.long.inj hname).2
  · rw [hword] at hname
    have hswitch : Switch.flag f = .value o := name_inj.mp (Word.long.inj hname).1
    contradiction
  · rw [hword] at hletters
    contradiction

theorem not_isOption_dashes : ¬IsOption dashes := by
  have hword : Word.ofText dashes = .dashes := rfl
  intro h
  rcases ofText_of_isOption h with ⟨s, hname⟩ | ⟨o, value, hname⟩ | hletters
  · rw [hword] at hname
    contradiction
  · rw [hword] at hname
    contradiction
  · rw [hword] at hletters
    contradiction

theorem not_malformed (hwrites : Writes args words) (hspells : Spells args options) : ¬Malformed words := by
  obtain ⟨honce, hplain, -, -⟩ := spells_iff.mp hspells
  rintro (⟨s, hcount⟩ | ⟨f, value, hmem⟩ | ⟨heq, hdashes, hoption, hvalue⟩ | ⟨heq⟩)
  · rw [countP_mentions hwrites hplain] at hcount
    have hle := List.nodup_iff_count_le_one.mp honce s
    omega
  · obtain ⟨before, after, heq⟩ := List.append_of_mem hmem
    rcases position hwrites hplain heq with hoption | ⟨o, -, hvalue⟩ | ⟨hdashes, -⟩
    · exact not_isOption_valued f value hoption
    · obtain ⟨rest, hname⟩ := name_eq_dashes (.flag f)
      rw [show f.name = '-' :: '-' :: rest from hname] at hvalue
      exact not_isPlain_dash _ _ hvalue
    · have hequals : '=' ∈ dashes := by
        rw [← hdashes]
        simp
      exact absurd hequals (by decide)
  · rcases position hwrites hplain heq with h | h | ⟨h, -⟩
    · exact hoption h
    · exact hvalue h
    · exact hdashes h
  · rcases position hwrites hplain heq with hoption | ⟨o, -, hvalue⟩ | ⟨-, hafter⟩
    · exact not_isOption_dashes hoption
    · exact not_isPlain_dash _ _ hvalue
    · contradiction

end Refused

section Questions

variable {g : Given} {q : Question} {words : List Text}

theorem store_ne_question {o : ValueOption} {value : Text} : g.store o value ≠ .error (.question q) := by
  intro h
  cases o with
  | family =>
    simp only [Given.store] at h
    split at h <;> cases h
  | workspace =>
    simp only [Given.store] at h
    split at h
    · cases h
    · split at h <;> cases h

theorem settle_ne_question {pending : Option Pending} : g.settle pending ≠ .error (.question q) := by
  match pending with
  | none => simp [Given.settle]
  | some ⟨o, none⟩ => simp [Given.settle]
  | some ⟨o, some value⟩ => exact store_ne_question

theorem raise_ne_question {f : Flag} : g.raise f ≠ .error (.question q) := by
  unfold Given.raise
  split <;> simp

theorem question_of_bind {α β : Type} {x : Except Refusal α} {f : α → Except Refusal β}
    (hx : x ≠ .error (.question q)) (h : x >>= f = .error (.question q)) : ∃ a, f a = .error (.question q) := by
  rcases bind_eq_error.mp h with h | ⟨a, -, h⟩
  · exact absurd h hx
  · exact ⟨a, h⟩

theorem letter_of_question {c : Char} (h : letter? c = some (.inr q)) : c = 'h' ∨ c = 'V' := by
  unfold letter? at h
  split at h
  · cases h
  · split at h
    next hc => exact .inl hc
    next =>
      split at h
      next hc => exact .inr hc
      next => cases h

theorem asks_of_raiseLetters {cs : Text} (h : g.raiseLetters cs = .error (.question q)) : Asks ('-' :: cs) := by
  have hletters : ∃ before c after, cs = before ++ c :: after ∧ (∀ b ∈ before, b = 'v') ∧ (c = 'h' ∨ c = 'V') := by
    induction cs generalizing g with
    | nil => contradiction
    | cons c cs ih =>
      rw [Given.raiseLetters] at h
      split at h
      next f hc =>
        obtain ⟨rfl, rfl⟩ := letter?_eq_inl.mp hc
        obtain ⟨g₁, h⟩ := question_of_bind raise_ne_question h
        obtain ⟨before, c, after, rfl, hbefore, hc⟩ := ih h
        exact ⟨'v' :: before, c, after, rfl, List.forall_mem_cons.mpr ⟨rfl, hbefore⟩, hc⟩
      next r hc => exact ⟨[], c, cs, rfl, by simp, letter_of_question hc⟩
      · cases h
  obtain ⟨before, c, after, rfl, hbefore, hc⟩ := hletters
  exact .letter after hbefore hc

theorem ofText_of_asks {t : Text} (h : Asks t) :
    (∃ q : Question, Word.ofText t = .long q.name none) ∨ ∃ cs, Word.ofText t = .letters cs := by
  cases h with
  | long q => exact .inl ⟨q, ofText_name (.question q)⟩
  | @letter before c after hbefore hc =>
    right
    cases before with
    | nil => rcases hc with rfl | rfl <;> exact ⟨_, rfl⟩
    | cons b before =>
      obtain rfl := hbefore b List.mem_cons_self
      exact ⟨_, rfl⟩

theorem exists_asks {pending : Option Pending} (h : readWords g pending words = .error (.question q)) :
    ∃ t ∈ words, Asks t := by
  induction words generalizing g pending with
  | nil => exact absurd h settle_ne_question
  | cons t ts ih =>
    have hlater {g : Given} {pending : Option Pending} (h : readWords g pending ts = .error (.question q)) :
        ∃ u ∈ t :: ts, Asks u := by
      obtain ⟨u, hu, hasks⟩ := ih h
      exact ⟨u, List.mem_cons_of_mem t hu, hasks⟩
    have htext := text_ofText t
    unfold readWords at h
    cases hword : Word.ofText t with
    | dashes =>
      simp only [hword] at h
      cases ts with
      | nil => exact absurd h settle_ne_question
      | cons u us => cases h
    | plain u =>
      simp only [hword] at h
      split at h
      · exact hlater h
      · cases h
    | letters cs =>
      rw [hword] at htext h
      cases cs with
      | nil => cases h
      | cons c cs =>
        simp only at h
        split at h
        · cases h
        · obtain ⟨g₁, h⟩ := question_of_bind settle_ne_question h
          rcases bind_eq_error.mp h with h | ⟨g₂, -, h⟩
          · exact ⟨t, List.mem_cons_self, htext ▸ asks_of_raiseLetters h⟩
          · exact hlater h
    | long name value? =>
      rw [hword] at htext h
      simp only at h
      split at h
      · cases h
      · obtain ⟨g₁, h⟩ := question_of_bind settle_ne_question h
        obtain ⟨g₂, h⟩ := question_of_bind store_ne_question h
        exact hlater h
      · obtain ⟨g₁, h⟩ := question_of_bind settle_ne_question h
        exact hlater h
      · cases h
      · obtain ⟨g₁, h⟩ := question_of_bind settle_ne_question h
        obtain ⟨g₂, h⟩ := question_of_bind raise_ne_question h
        exact hlater h
      next r hname =>
        obtain rfl : r.name = name := name_of_switch? hname
        refine ⟨t, List.mem_cons_self, ?_⟩
        rw [← htext]
        exact .long r

end Questions

section Words

variable {words : List Text}

theorem refused_of_malformed (hmalformed : Malformed words) (hasks : ∀ t ∈ words, ¬Asks t) :
    ∃ refusal, Options.ofWords words = .error refusal ∧ ∀ q, refusal ≠ .question q := by
  cases hwords : Options.ofWords words with
  | ok options =>
    obtain ⟨args, hwrites, hspells⟩ := ofWords_eq_ok.mp hwords
    exact absurd hmalformed (not_malformed hwrites hspells)
  | error refusal =>
    refine ⟨refusal, rfl, ?_⟩
    rintro q rfl
    obtain ⟨t, ht, h⟩ := exists_asks (map_eq_error.mp hwords)
    exact hasks t ht h

theorem run_refused {refusal : Refusal} (h : Options.ofWords words = .error refusal) (hq : ∀ q, refusal ≠ .question q)
    (host : Host) (logAsked : Option Text) (files : FileTree) (cwd : Location) :
    run host words logAsked files cwd = ⟨2, [.stderr (refusal.complaint ++ ['\n'])], files, []⟩ := by
  unfold run
  rw [h]
  cases refusal with
  | question q => exact absurd rfl (hq q)
  | unknownArgument | valueMissing | unexpectedValue | repeated => rfl

theorem run_spelled (words : List Text) :
    (∀ options, Options.ofWords words = .ok options ↔ ∃ args, Writes args words ∧ Spells args options) ∧
      (Malformed words → (∀ t ∈ words, ¬Asks t) → ∃ refusal, Options.ofWords words = .error refusal ∧
        ∀ host logAsked files cwd, run host words logAsked files cwd =
          ⟨2, [.stderr (refusal.complaint ++ ['\n'])], files, []⟩) := by
  constructor
  · intro options
    exact ofWords_eq_ok
  · intro hmalformed hasks
    obtain ⟨refusal, hwords, hq⟩ := refused_of_malformed hmalformed hasks
    exact ⟨refusal, hwords, run_refused hwords hq⟩

def mixedArguments : List Argument :=
  [.joined .workspace ['a'], .letter, .separate .family "=b".toList, .flag .dry]

theorem spells_mixedArguments :
    Spells mixedArguments ⟨{ dryRun := true, family := "=b".toList, workspace := ['a'] }, true⟩ where
  once := by decide
  plain o value h := by
    obtain ⟨rfl, rfl⟩ : o = .family ∧ value = "=b".toList := by simpa [mixedArguments] using h
    exact .inl (by decide)
  flags f := by cases f <;> decide
  family := rfl
  workspace := rfl
  named := by decide

theorem run_spelled_mixed :
    Options.ofWords ["--workspace=a".toList, "-v".toList, "--prefix".toList, "=b".toList, "--dry".toList] =
        .ok ⟨{ dryRun := true, family := "=b".toList, workspace := ['a'] }, true⟩ ∧
      ∃ refusal, Options.ofWords ["--tag".toList, "--dry=yes".toList] = .error refusal ∧
        ∀ host logAsked files cwd, run host ["--tag".toList, "--dry=yes".toList] logAsked files cwd =
          ⟨2, [.stderr (refusal.complaint ++ ['\n'])], files, []⟩ := by
  constructor
  · exact ((run_spelled _).1 _).mpr ⟨mixedArguments, .inl rfl, spells_mixedArguments⟩
  · apply (run_spelled _).2
    · exact .valued .dry "yes".toList (by decide)
    · intro t ht hasks
      have hwords (q : Question) (cs : Text) : ∀ t ∈ ["--tag".toList, "--dry=yes".toList],
          Word.ofText t ≠ .long q.name none ∧ Word.ofText t ≠ .letters cs := by
        intro t ht
        rcases List.mem_pair.mp ht with rfl | rfl <;> cases q <;> exact ⟨by decide, nofun⟩
      rcases ofText_of_asks hasks with ⟨q, hlong⟩ | ⟨cs, hletters⟩
      · exact (hwords q [] t ht).1 hlong
      · exact (hwords .help cs t ht).2 hletters

end Words

end WorkspaceRelease.CommandLine

import SectorChain.Shell.Command

/-!
# The syntax of commands

A command is typed as its name, the flag for whole trees if it is set, and its arguments, with one
blank between them. What is read of a line are its words only: separators of words may stand for the
blanks, and any white space may stand at both ends. But a line is trimmed by one notion of white
space and cut into words by another, so a command whose last argument ends in white space that
separates no words is not read back.

* `Numeral.Spells w n`: a word spells a number.
* `tokens`, `IsToken`, `IsText`: the words of a text, one word, and one or more.
* `Widens`, `Spread`: more white space between words, and at the ends of a line.
* `Command.render`, `Command.Typable`: a command as it is typed, if it can be.
* `Command.shapes`: what each command needs.
* `Command.Refused`: why words are no command.

Results:
* `Numeral.parse?_eq_some_iff`: which words are numbers.
* `tokens_intercalate`, `Widens.tokens_eq`, `words_of_spread`: the words of a line.
* `ofWords?_arguments`, `ofWords?_eq_none_iff`: the words that a command is made of, and those that
  none is made of.
* `parse_inverts`: both, for lines.
-/

namespace SectorChain

/-! ## Numerals -/

namespace Numeral

variable {limit n v : Nat} {cs : List Char} {w : String}

theorem digit?_eq (c : Char) :
    digit? c = if c.isDigit then some (c.toNat - '0'.toNat) else none := by
  unfold digit? Char.isDigit
  simp only [ge_iff_le, Bool.and_eq_true, decide_eq_true_eq]
  rfl

/-- More digits do not make a number smaller. -/
theorem le_ofDigitChars (cs : List Char) (n : Nat) : n ≤ Nat.ofDigitChars 10 cs n := by
  induction cs generalizing n with
  | nil => exact Nat.le_refl n
  | cons c cs ih =>
    rw [Nat.ofDigitChars_cons]
    exact Nat.le_trans (by omega) (ih _)

/-- **The value of digits**, if it is below the limit. -/
theorem digits?_eq_some_iff (h : n < limit) : digits? limit n cs = some v ↔
    (∀ c ∈ cs, c.isDigit = true) ∧ Nat.ofDigitChars 10 cs n = v ∧ v < limit := by
  induction cs generalizing n with
  | nil =>
    rw [digits?, Nat.ofDigitChars_nil, Option.some_inj]
    constructor
    · rintro rfl
      exact ⟨by simp, rfl, h⟩
    · exact fun hv => hv.2.1
  | cons c cs ih =>
    rw [digits?, digit?_eq, List.forall_mem_cons, Nat.ofDigitChars_cons]
    by_cases hc : c.isDigit = true
    · simp only [hc, if_true, true_and, Option.bind_eq_bind, Option.bind_some]
      split
      · rename_i hnext
        exact ih hnext
      · rename_i hnext
        refine iff_of_false (by simp) fun hv => hnext ?_
        exact Nat.lt_of_le_of_lt (hv.2.1 ▸ le_ofDigitChars cs _) hv.2.2
    · simp [hc]

/-- **The word spells a number**: at most one plus sign, and one or more decimal digits. -/
def Spells (w : String) (n : Nat) : Prop :=
  ∃ digits, (w.toList = digits ∨ w.toList = '+' :: digits) ∧ digits ≠ [] ∧
    (∀ c ∈ digits, c.isDigit = true) ∧ Nat.ofDigitChars 10 digits 0 = n

/-- The digits of a word are what is left without a plus sign at its front. -/
theorem parse?_eq {digits : List Char} (limit : Nat)
    (h : w.toList = digits ∧ digits.head? ≠ some '+' ∨ w.toList = '+' :: digits) :
    parse? limit w = if digits = [] then none else digits? limit 0 digits := by
  unfold parse?
  rcases h with ⟨rfl, hhead⟩ | hplus
  · split
    · rename_i rest hrest
      exact absurd (by rw [hrest]; rfl) hhead
    · simp only [List.isEmpty_iff]
  · rw [hplus]
    simp only [List.isEmpty_iff]

theorem parse?_eq_some_iff (h : 0 < limit) :
    parse? limit w = some v ↔ Spells w v ∧ v < limit := by
  constructor
  · intro hv
    obtain ⟨digits, hw⟩ : ∃ digits,
        w.toList = digits ∧ digits.head? ≠ some '+' ∨ w.toList = '+' :: digits := by
      by_cases hhead : w.toList.head? = some '+'
      · obtain ⟨digits, hplus⟩ := List.head?_eq_some_iff.mp hhead
        exact ⟨digits, .inr hplus⟩
      · exact ⟨_, .inl ⟨rfl, hhead⟩⟩
    rw [parse?_eq limit hw] at hv
    split at hv
    · cases hv
    · rename_i hne
      obtain ⟨hdigits, hvalue, hlt⟩ := (digits?_eq_some_iff h).mp hv
      exact ⟨⟨digits, hw.imp And.left id, hne, hdigits, hvalue⟩, hlt⟩
  · rintro ⟨⟨digits, hw, hne, hdigits, hvalue⟩, hlt⟩
    have hplus : digits.head? ≠ some '+' := fun hhead => by
      have := hdigits '+' (List.mem_of_head? hhead)
      cases this
    rw [parse?_eq limit (hw.imp (fun hw => ⟨hw, hplus⟩) id), if_neg hne]
    exact (digits?_eq_some_iff h).mpr ⟨hdigits, hvalue, hlt⟩

theorem spells_toString (n : Nat) : Spells (toString n) n :=
  ⟨Nat.toDigits 10 n, .inl String.toList_ofList, Nat.toDigits_ne_nil,
    fun _ hc => Nat.isDigit_of_mem_toDigits (by decide) (by decide) hc,
    Nat.ofDigitChars_toDigits (by decide) (by decide)⟩

end Numeral

namespace Shell

/-! ## Words -/

/-- The words of a text, whose ends are words like others. -/
def tokens (cs : List Char) : List String :=
  ((cs.splitOnP isSeparator).filter (!·.isEmpty)).map String.ofList

/-- A word: some characters, and none that stands between words. -/
def IsToken (w : String) : Prop := w ≠ "" ∧ ∀ c ∈ w.toList, isSeparator c = false

instance (w : String) : Decidable (IsToken w) :=
  decidable_of_iff (w ≠ "" ∧ w.toList.all (!isSeparator ·) = true) <| by
    simp only [IsToken, List.all_eq_true, Bool.not_eq_true']

/-- A text of one or more words, with one blank between them. -/
def IsText (t : String) : Prop := ∃ ws, ws ≠ [] ∧ (∀ w ∈ ws, IsToken w) ∧ t = " ".intercalate ws

variable {a b g pre core post : List Char} {c : Char} {w t : String}

theorem words_eq_tokens (line : String) : words line = tokens (trimmed line.toList) := rfl

@[simp] theorem tokens_nil : tokens [] = [] := by
  unfold tokens
  rw [List.splitOnP_nil]
  rfl

/-- Words do not go across what stands between words. -/
theorem tokens_append_cons (hc : isSeparator c = true) (a b : List Char) :
    tokens (a ++ c :: b) = tokens a ++ tokens b := by
  unfold tokens
  rw [List.splitOnP_append_cons _ _ hc, List.filter_append, List.map_append]

theorem tokens_append (hg : ∀ c ∈ g, isSeparator c = true) (b : List Char) :
    tokens (g ++ b) = tokens b := by
  induction g with
  | nil => rfl
  | cons c g ih =>
    obtain ⟨hc, hg⟩ := List.forall_mem_cons.mp hg
    have hsplit := tokens_append_cons hc [] (g ++ b)
    rwa [List.nil_append, tokens_nil, List.nil_append, ih hg] at hsplit

theorem tokens_of_isToken (h : IsToken w) : tokens w.toList = [w] := by
  unfold tokens
  have hne : w.toList ≠ [] := fun hnil => h.1 (String.toList_eq_nil_iff.mp hnil)
  rw [List.splitOnP_eq_singleton h.2, List.filter_cons_of_pos (by simpa using hne)]
  simp

theorem isSeparator_of_isDigit {ch : Char} (h : ch.isDigit = true) : isSeparator ch = false := by
  refine Bool.eq_false_iff.mpr fun hsep => ?_
  simp only [isSeparator, Bool.or_eq_true, beq_iff_eq] at hsep
  rcases hsep with (((rfl | rfl) | rfl) | rfl) | rfl <;> cases h

theorem isToken_toString (n : Nat) : IsToken (toString n) := by
  have hw : (toString n).toList = Nat.toDigits 10 n := String.toList_ofList
  refine ⟨fun hnil => Nat.toDigits_ne_nil (hw.symm.trans (by rw [hnil]; rfl)), fun c hc => ?_⟩
  rw [hw] at hc
  exact isSeparator_of_isDigit (Nat.isDigit_of_mem_toDigits (by decide) (by decide) hc)

theorem tokens_intercalate (l : List String) :
    tokens (" ".intercalate l).toList = l.flatMap fun w => tokens w.toList := by
  induction l with
  | nil => exact tokens_nil
  | cons w l ih =>
    cases l with
    | nil => simp
    | cons w' l =>
      have hblank : (" " : String).toList = [' '] := rfl
      rw [String.intercalate_cons_cons, String.toList_append, String.toList_append, hblank,
        List.append_assoc, List.singleton_append, tokens_append_cons rfl, ih]
      rfl

theorem tokens_of_words {ws : List String} (h : ∀ w ∈ ws, IsToken w) :
    tokens (" ".intercalate ws).toList = ws := by
  rw [tokens_intercalate]
  induction ws with
  | nil => rfl
  | cons w ws ih =>
    obtain ⟨hw, hws⟩ := List.forall_mem_cons.mp h
    rw [List.flatMap_cons, tokens_of_isToken hw, ih hws]
    rfl

/-! ## White space -/

/-- **More white space between words**: the second text is the first one with some of the blanks in
it made longer, or replaced by other separators of words. -/
inductive Widens : List Char → List Char → Prop
  | nil : Widens [] []
  | keep {a b : List Char} (c : Char) (h : Widens a b) : Widens (c :: a) (c :: b)
  | gap {a b g : List Char} (hne : g ≠ []) (hg : ∀ c ∈ g, isSeparator c = true)
      (h : Widens a b) : Widens (' ' :: a) (g ++ b)

/-- A text that neither begins nor ends in white space. -/
def Solid (cs : List Char) : Prop :=
  (∃ c, cs.head? = some c ∧ isBlank c = false) ∧ ∃ c, cs.getLast? = some c ∧ isBlank c = false

/-- The line is the text with more white space between its words, and any white space at both
ends. -/
def Spread (text line : String) : Prop :=
  ∃ pre core post, line.toList = pre ++ core ++ post ∧ Widens text.toList core ∧
    (∀ c ∈ pre, isBlank c = true) ∧ ∀ c ∈ post, isBlank c = true

namespace Widens

theorem refl (a : List Char) : Widens a a := by
  induction a with
  | nil => exact .nil
  | cons c a ih => exact .keep c ih

theorem tokens_eq (h : Widens a b) (p : List Char) : tokens (p ++ b) = tokens (p ++ a) := by
  induction h generalizing p with
  | nil => rfl
  | keep c h ih =>
    have := ih (p ++ [c])
    rwa [List.append_assoc, List.append_assoc] at this
  | @gap a b g hne hg h ih =>
    obtain ⟨c, g, rfl⟩ := List.exists_cons_of_ne_nil hne
    obtain ⟨hc, hg⟩ := List.forall_mem_cons.mp hg
    rw [tokens_append_cons rfl, List.cons_append, tokens_append_cons hc, tokens_append hg]
    exact congrArg _ (ih [])

theorem head? (h : Widens a b) (ha : a.head? = some c) (hc : c ≠ ' ') : b.head? = some c := by
  cases h with
  | nil => cases ha
  | keep _ h => exact ha
  | gap =>
    cases ha
    exact absurd rfl hc

theorem getLast? (h : Widens a b) (ha : a.getLast? = some c) (hc : c ≠ ' ') :
    b.getLast? = some c := by
  obtain ⟨front, rfl⟩ := List.getLast?_eq_some_iff.mp ha
  refine List.getLast?_eq_some_iff.mpr ?_
  clear ha
  induction front generalizing b with
  | nil =>
    cases h with
    | keep _ h =>
      cases h
      exact ⟨[], rfl⟩
    | gap => exact absurd rfl hc
  | cons x front ih =>
    cases h with
    | keep _ h =>
      obtain ⟨b', rfl⟩ := ih h
      exact ⟨_ :: b', rfl⟩
    | gap _ _ h =>
      obtain ⟨b', rfl⟩ := ih h
      exact ⟨_ ++ b', (List.append_assoc _ _ _).symm⟩

theorem solid (h : Widens a b) (ha : Solid a) : Solid b := by
  have hne : ∀ {c}, isBlank c = false → c ≠ ' ' := by
    rintro c hc rfl
    cases hc
  obtain ⟨⟨first, hfirst, hf⟩, last, hlast, hl⟩ := ha
  exact ⟨⟨first, h.head? hfirst (hne hf), hf⟩, last, h.getLast? hlast (hne hl), hl⟩

end Widens

theorem Spread.refl (text : String) : Spread text text :=
  ⟨[], text.toList, [], by simp, Widens.refl _, by simp, by simp⟩

theorem dropWhile_blank (hpre : ∀ c ∈ pre, isBlank c = true)
    (hcore : ∃ c, core.head? = some c ∧ isBlank c = false) :
    (pre ++ core).dropWhile isBlank = core := by
  obtain ⟨c, hc, hsolid⟩ := hcore
  obtain ⟨rest, rfl⟩ := List.head?_eq_some_iff.mp hc
  rw [List.dropWhile_append_of_pos hpre, List.dropWhile_cons_of_neg (by rw [hsolid]; decide)]

theorem trimmed_eq (hcore : Solid core) (hpre : ∀ c ∈ pre, isBlank c = true)
    (hpost : ∀ c ∈ post, isBlank c = true) : trimmed (pre ++ core ++ post) = core := by
  obtain ⟨⟨first, hfirst, hsolid⟩, hlast⟩ := hcore
  have hfront : (core ++ post).head? = some first := by
    rw [List.head?_append, hfirst, Option.some_or]
  have hback : (core ++ post).reverse.dropWhile isBlank = core.reverse := by
    rw [List.reverse_append]
    exact dropWhile_blank (by simpa using hpost) (by simpa using hlast)
  rw [trimmed, List.append_assoc, dropWhile_blank hpre ⟨first, hfront, hsolid⟩, hback,
    List.reverse_reverse]

/-- **The words of a line** are those of any text that it is spread from. -/
theorem words_of_spread {text line : String} (h : Spread text line) (htext : Solid text.toList) :
    words line = tokens text.toList := by
  obtain ⟨pre, core, post, hline, hwide, hpre, hpost⟩ := h
  rw [words_eq_tokens, hline, trimmed_eq (hwide.solid htext) hpre hpost]
  exact hwide.tokens_eq []

/-! ## Arguments -/

theorem Command.number?_eq_some_iff {n : Nat} :
    number? w = some n ↔ Numeral.Spells w n ∧ n < Numeral.wordLimit :=
  Numeral.parse?_eq_some_iff (by decide)

theorem Command.number?_toString {n : Nat} (h : n < Numeral.wordLimit) :
    number? (toString n) = some n :=
  number?_eq_some_iff.mpr ⟨Numeral.spells_toString n, h⟩

/-- An argument of a command. -/
inductive Argument where
  | flag
  | path (p : String)
  | number (n : Nat)
  | text (t : String)

namespace Argument

/-- The argument as it is typed. -/
def spell : Argument → String
  | .flag => "-r"
  | .path p => p
  | .number n => toString n
  | .text t => t

/-- A path is one word, a number is below the limit, and a text is words. -/
def Proper : Argument → Prop
  | .flag => True
  | .path p => IsToken p
  | .number n => n < Numeral.wordLimit
  | .text t => IsText t

/-- The words of an argument. -/
def words (a : Argument) : List String := tokens a.spell.toList

theorem words_flag : flag.words = ["-r"] := tokens_of_isToken (by decide)

theorem words_path {p : String} (h : (path p).Proper) : (path p).words = [p] := tokens_of_isToken h

/-- A number is read as what it is. -/
theorem words_number {n : Nat} (h : (number n).Proper) :
    ∃ w, (number n).words = [w] ∧ Command.number? w = some n :=
  ⟨toString n, tokens_of_isToken (isToken_toString n), Command.number?_toString h⟩

/-- A text is made of its words again. -/
theorem words_text {t : String} (h : (text t).Proper) :
    ∃ w ws, (text t).words = w :: ws ∧ " ".intercalate (w :: ws) = t := by
  obtain ⟨ws, hne, hws, rfl⟩ := h
  obtain ⟨w, ws', rfl⟩ := List.exists_cons_of_ne_nil hne
  have hwords := tokens_of_words hws
  exact ⟨w, ws', hwords, rfl⟩

end Argument

namespace Command

/-! ## What commands need -/

/-- What a required argument must be. -/
inductive Param where
  | word
  | number
  | text

/-- What a command needs: whether it looks for the flag for whole trees before anything else, and
the arguments that must be there. -/
structure Signature where
  flag : Bool
  params : List Param

/-- The names of commands, by what they need. -/
def shapes : List (List String × Signature) :=
  [(["help", "pwd", "print", "df", "files", "format", "exit", "quit"], ⟨false, []⟩),
    (["ls"], ⟨true, []⟩),
    (["cd", "mkdir", "cat", "stat", "open"], ⟨false, [.word]⟩),
    (["rm"], ⟨true, [.word]⟩),
    (["create"], ⟨false, [.word, .number]⟩),
    (["write"], ⟨false, [.word, .number, .text]⟩),
    (["close"], ⟨false, [.number]⟩),
    (["fread", "fseek"], ⟨false, [.number, .number]⟩),
    (["fwrite"], ⟨false, [.number, .text]⟩)]

/-- The names of all commands; two of them ask for the same. -/
def names : List String := shapes.flatMap Prod.fst

/-- What the command with this name needs. -/
def Takes (name : String) (s : Signature) : Prop := ∃ ns, (ns, s) ∈ shapes ∧ name ∈ ns

/-- The arguments behind the flag, if there is one. -/
def Signature.operands (s : Signature) (args : List String) : List String :=
  if s.flag then (takeRecursive args).2 else args

/-- A number that fits into a machine word, as it can be typed. -/
def IsNumeral (w : String) : Prop := ∃ n, Numeral.Spells w n ∧ n < Numeral.wordLimit

/-- **Why words are no command.** -/
inductive Refused : List String → Prop
  | blank : Refused []
  | unknown {name : String} {args : List String} (h : name ∉ names) : Refused (name :: args)
  | missing {name : String} {args : List String} {s : Signature} (h : Takes name s)
      (hlt : (s.operands args).length < s.params.length) : Refused (name :: args)
  | notNumeral {name : String} {args : List String} {s : Signature} {i : Nat} {w : String}
      (h : Takes name s) (hparam : s.params[i]? = some .number)
      (hw : (s.operands args)[i]? = some w) (hn : ¬ IsNumeral w) : Refused (name :: args)

/-- The first words are the required arguments, and those that must be numbers are. -/
def Fits : List Param → List String → Prop
  | [], _ => True
  | _ :: _, [] => False
  | .number :: ps, w :: ws => IsNumeral w ∧ Fits ps ws
  | _ :: ps, _ :: ws => Fits ps ws

/-! ## Commands as they are typed -/

/-- The name of a command. -/
def name : Command → String
  | .help => "help"
  | .ls _ _ => "ls"
  | .pwd => "pwd"
  | .cd _ => "cd"
  | .mkdir _ => "mkdir"
  | .create _ _ => "create"
  | .rm _ _ => "rm"
  | .cat _ => "cat"
  | .write _ _ _ => "write"
  | .stat _ => "stat"
  | .print => "print"
  | .df => "df"
  | .openFile _ => "open"
  | .close _ => "close"
  | .fread _ _ => "fread"
  | .fwrite _ _ => "fwrite"
  | .fseek _ _ => "fseek"
  | .files => "files"
  | .format => "format"
  | .exit => "exit"

/-- The flag for whole trees, if it is set. -/
def flagged (recursive : Bool) : List Argument := if recursive then [.flag] else []

/-- The arguments of a command, in their order. -/
def arguments : Command → List Argument
  | .help | .pwd | .print | .df | .files | .format | .exit => []
  | .ls path recursive => flagged recursive ++ path.toList.map .path
  | .cd path | .mkdir path | .cat path | .stat path | .openFile path => [.path path]
  | .create path size => [.path path, .number size]
  | .rm path recursive => flagged recursive ++ [.path path]
  | .write path offset text => [.path path, .number offset, .text text]
  | .close id => [.number id]
  | .fread id count => [.number id, .number count]
  | .fwrite id text => [.number id, .text text]
  | .fseek id position => [.number id, .number position]

/-- **The command as it is typed**: its name and its arguments with one blank between them. -/
def render (c : Command) : String := " ".intercalate (c.name :: c.arguments.map Argument.spell)

/-- **The command can be typed**: its arguments are proper, a path is not taken for the flag, and
the last argument does not end in white space. -/
structure Typable (c : Command) : Prop where
  proper : ∀ a ∈ c.arguments, a.Proper
  ls_path : c ≠ .ls (some "-r") false
  rm_path : c ≠ .rm "-r" false
  solid : ∀ ch, c.render.toList.getLast? = some ch → isBlank ch = false

variable {c : Command} {args : List String} {p : String}

/-- A path that is not spelled like the flag is none. -/
theorem takeRecursive_of_ne (h : p ≠ "-r") (args : List String) :
    takeRecursive (p :: args) = (false, p :: args) := by
  unfold takeRecursive
  split
  · rename_i heq
    cases heq
    exact absurd rfl h
  · rfl

/-! ## Reading a command back -/

/-- **The words of the arguments** make the command with its name. -/
theorem ofWords?_arguments (h : c.Typable) :
    ofWords? c.name (c.arguments.flatMap Argument.words) = some c := by
  obtain ⟨hproper, hls, hrm, -⟩ := h
  cases c with
  | help | pwd | print | df | files | format | exit => rfl
  | ls path recursive =>
    cases path with
    | none => cases recursive <;> rfl
    | some p =>
      have hp := Argument.words_path (hproper (.path p) (by simp [arguments]))
      cases recursive with
      | true => simp [name, arguments, flagged, ofWords?, Argument.words_flag, hp, takeRecursive]
      | false =>
        have hne : p ≠ "-r" := fun hp => hls (by rw [hp])
        simp [name, arguments, flagged, ofWords?, hp, takeRecursive_of_ne hne]
  | rm p recursive =>
    have hp := Argument.words_path (hproper (.path p) (by simp [arguments]))
    cases recursive with
    | true => simp [name, arguments, flagged, ofWords?, Argument.words_flag, hp, takeRecursive]
    | false =>
      have hne : p ≠ "-r" := fun hp => hrm (by rw [hp])
      simp [name, arguments, flagged, ofWords?, hp, takeRecursive_of_ne hne]
  | cd p | mkdir p | cat p | stat p | openFile p =>
    have hp := Argument.words_path (hproper (.path p) (by simp [arguments]))
    simp [name, arguments, ofWords?, hp]
  | create p size =>
    have hp := Argument.words_path (hproper (.path p) (by simp [arguments]))
    obtain ⟨w, hw, hsize⟩ :=
      Argument.words_number (hproper (.number size) (by simp [arguments]))
    simp [name, arguments, ofWords?, hp, hw, hsize]
  | write p offset text =>
    have hp := Argument.words_path (hproper (.path p) (by simp [arguments]))
    obtain ⟨o, ho, hoffset⟩ :=
      Argument.words_number (hproper (.number offset) (by simp [arguments]))
    obtain ⟨w, ws, hw, ht⟩ := Argument.words_text (hproper (.text text) (by simp [arguments]))
    simp [name, arguments, ofWords?, hp, ho, hoffset, hw, ht]
  | fwrite id text =>
    obtain ⟨i, hi, hid⟩ :=
      Argument.words_number (hproper (.number id) (by simp [arguments]))
    obtain ⟨w, ws, hw, ht⟩ := Argument.words_text (hproper (.text text) (by simp [arguments]))
    simp [name, arguments, ofWords?, hi, hid, hw, ht]
  | close id =>
    obtain ⟨i, hi, hid⟩ :=
      Argument.words_number (hproper (.number id) (by simp [arguments]))
    simp [name, arguments, ofWords?, hi, hid]
  | fread id n | fseek id n =>
    obtain ⟨i, hi, hid⟩ :=
      Argument.words_number (hproper (.number id) (by simp [arguments]))
    obtain ⟨j, hj, hn⟩ :=
      Argument.words_number (hproper (.number n) (by simp [arguments]))
    simp [name, arguments, ofWords?, hi, hj, hid, hn]

/-! ### The ends of what is typed -/

theorem name_mem_names (c : Command) : c.name ∈ names := by
  cases c <;> simp [name, names, shapes]

theorem isToken_of_mem_names : ∀ w ∈ names, IsToken w := by decide

theorem solid_head_of_mem_names : ∀ w ∈ names, w.toList.head?.any (!isBlank ·) = true := by
  decide

theorem Typable.solid_render (h : c.Typable) : Solid c.render.toList := by
  obtain ⟨first, hfirst, hsolid⟩ :=
    (Option.any_eq_true _ _).mp (solid_head_of_mem_names c.name c.name_mem_names)
  rw [Bool.not_eq_true'] at hsolid
  obtain ⟨front, hfront⟩ := List.head?_eq_some_iff.mp hfirst
  have hhead : c.render.toList.head? = some first := by
    unfold render
    cases c.arguments.map Argument.spell with
    | nil => simpa using hfirst
    | cons w l =>
      rw [String.intercalate_cons_cons, String.toList_append, String.toList_append, hfront]
      rfl
  have hne : c.render.toList ≠ [] := by
    rintro hnil
    rw [hnil] at hhead
    cases hhead
  exact ⟨⟨first, hhead, hsolid⟩, _, List.getLast?_eq_some_getLast hne,
    h.solid _ (List.getLast?_eq_some_getLast hne)⟩

theorem words_of_spread_render {line : String} (h : c.Typable) (hline : Spread c.render line) :
    words line = c.name :: c.arguments.flatMap Argument.words := by
  rw [words_of_spread hline h.solid_render, render, tokens_intercalate, List.flatMap_cons,
    tokens_of_isToken (isToken_of_mem_names _ c.name_mem_names), List.flatMap_map]
  rfl

/-! ## Words that are no command -/

variable {s : Signature} {nm : String} {ps : List Param}

theorem isNumeral_iff : IsNumeral w ↔ (number? w).isSome = true := by
  unfold IsNumeral
  simp only [Option.isSome_iff_exists, number?_eq_some_iff]

/-- Arguments fit unless one is missing, or one is no number that must be. -/
theorem not_fits_iff : ¬ Fits ps args ↔ args.length < ps.length ∨
    ∃ (i : Nat) (w : String), ps[i]? = some .number ∧ args[i]? = some w ∧ ¬ IsNumeral w := by
  induction ps generalizing args with
  | nil => simp [Fits]
  | cons p ps ih =>
    cases args with
    | nil => simp [Fits]
    | cons w args =>
      rw [← Nat.or_exists_add_one]
      simp only [List.getElem?_cons_zero, List.getElem?_cons_succ, List.length_cons,
        Nat.add_lt_add_iff_right]
      cases p with
      | number =>
        rw [Fits, Classical.not_and_iff_not_or_not, ih]
        simpa using or_left_comm
      | word | text => simpa [Fits] using ih

theorem ofWords?_eq_none_of_unknown (h : nm ∉ names) (args : List String) :
    ofWords? nm args = none := by
  have hne : ∀ n ∈ names, nm ≠ n := fun n hn heq => h (heq ▸ hn)
  simp only [names, shapes, List.flatMap_cons, List.flatMap_nil, List.forall_mem_append,
    List.forall_mem_cons] at hne
  unfold ofWords?
  split
  all_goals first | rfl | simp only [ne_eq, not_true_eq_false, false_and, and_false] at hne

/-- **What is no command**, for each name. -/
theorem ofWords?_eq_none_iff (h : Takes nm s) :
    ofWords? nm args = none ↔ ¬ Fits s.params (s.operands args) := by
  obtain ⟨ns, hshape, hname⟩ := h
  simp only [shapes, List.mem_cons, Prod.mk.injEq, List.not_mem_nil, or_false] at hshape
  rcases hshape with ⟨rfl, rfl⟩ | ⟨rfl, rfl⟩ | ⟨rfl, rfl⟩ | ⟨rfl, rfl⟩ | ⟨rfl, rfl⟩ | ⟨rfl, rfl⟩ |
    ⟨rfl, rfl⟩ | ⟨rfl, rfl⟩ | ⟨rfl, rfl⟩
  -- one goal for each line of the table: the arguments are taken apart as far as it looks at them
  all_goals simp only [List.mem_cons, List.not_mem_nil, or_false] at hname
  · rcases hname with rfl | rfl | rfl | rfl | rfl | rfl | rfl | rfl <;> simp [ofWords?, Fits]
  · subst hname
    simp [ofWords?, Fits]
  · rcases hname with rfl | rfl | rfl | rfl | rfl <;>
      cases args <;> simp [ofWords?, Fits, Signature.operands]
  · subst hname
    cases htake : takeRecursive args with
    | mk r rest => cases rest <;> simp [ofWords?, Fits, Signature.operands, htake]
  · subst hname
    rcases args with _ | ⟨a, _ | ⟨b, args⟩⟩ <;>
      simp [ofWords?, Fits, Signature.operands, isNumeral_iff]
  · subst hname
    rcases args with _ | ⟨a, _ | ⟨b, _ | ⟨c, args⟩⟩⟩ <;>
      simp [ofWords?, Fits, Signature.operands, isNumeral_iff]
  · subst hname
    cases args <;> simp [ofWords?, Fits, Signature.operands, isNumeral_iff]
  · rcases args with _ | ⟨a, _ | ⟨b, args⟩⟩
    · rcases hname with rfl | rfl <;> simp [ofWords?, Fits, Signature.operands]
    · rcases hname with rfl | rfl <;> simp [ofWords?, Fits, Signature.operands]
    · rcases hname with rfl | rfl <;> cases ha : number? a <;> cases hb : number? b <;>
        simp [ofWords?, Fits, Signature.operands, isNumeral_iff, ha, hb]
  · subst hname
    rcases args with _ | ⟨a, _ | ⟨b, args⟩⟩ <;>
      simp [ofWords?, Fits, Signature.operands, isNumeral_iff]

/-- **What is no command**, for each line. -/
theorem parse?_eq_none_iff (line : String) : parse? line = none ↔ Refused (words line) := by
  unfold parse?
  cases words line with
  | nil => exact iff_of_true rfl .blank
  | cons nm args =>
    constructor
    · intro h
      by_cases hname : nm ∈ names
      · obtain ⟨⟨ns, s⟩, hshape, hmem⟩ := List.mem_flatMap.mp hname
        have htakes : Takes nm s := ⟨ns, hshape, hmem⟩
        rcases not_fits_iff.mp ((ofWords?_eq_none_iff htakes).mp h) with hlt | ⟨i, w, hi, hw, hn⟩
        · exact .missing htakes hlt
        · exact .notNumeral htakes hi hw hn
      · exact .unknown hname
    · intro h
      cases h with
      | unknown h => exact ofWords?_eq_none_of_unknown h args
      | missing h hlt => exact (ofWords?_eq_none_iff h).mpr (not_fits_iff.mpr (.inl hlt))
      | notNumeral h hi hw hn =>
        exact (ofWords?_eq_none_iff h).mpr (not_fits_iff.mpr (.inr ⟨_, _, hi, hw, hn⟩))

/-! ## The syntax -/

theorem parse?_of_spread {line : String} (h : c.Typable) (hline : Spread c.render line) :
    parse? line = some c := by
  rw [parse?, words_of_spread_render h hline]
  exact ofWords?_arguments h

/-- **Reading a line inverts typing a command.** Every command that can be typed is what is read of
its name, the flag if it is set, and its arguments with one blank between them, and so it is with
any separators for the blanks and any white space at both ends. A line is no command just if it has
no word, if its first word is no name, if an argument is missing that must be there, or if one is no
number that must be. -/
theorem parse_inverts :
    (∀ c : Command, c.Typable → parse? c.render = some c ∧
      ∀ line, Spread c.render line → parse? line = some c) ∧
    ∀ line, parse? line = none ↔ Refused (words line) :=
  ⟨fun _ h => ⟨parse?_of_spread h (Spread.refl _), fun _ hline => parse?_of_spread h hline⟩,
    parse?_eq_none_iff⟩

/-- A command between an ideographic space and a space that does not break, with other separators
between its words. -/
theorem parse_inverts_spread : (Command.rm "a" true).Typable ∧
    Spread (Command.rm "a" true).render "\u3000rm \t-r\x0ca\u00a0" ∧
    parse? "\u3000rm \t-r\x0ca\u00a0" = some (.rm "a" true) := by
  have htypable : (Command.rm "a" true).Typable := by
    refine ⟨fun a ha => ?_, by decide, by decide, fun ch hlast => ?_⟩
    · rcases List.mem_cons.mp ha with rfl | ha
      · exact trivial
      · cases List.mem_singleton.mp ha
        exact (by decide : IsToken "a")
    · have ha : (Command.rm "a" true).render.toList.getLast? = some 'a' := by decide
      cases hlast.symm.trans ha
      rfl
  have hspread : Spread (Command.rm "a" true).render "\u3000rm \t-r\x0ca\u00a0" := by
    have htail : Widens [' ', 'a'] ['\x0c', 'a'] :=
      .gap (g := ['\x0c']) (by decide) (List.all_eq_true.mp (by decide)) (.refl _)
    have hflag : Widens [' ', '-', 'r', ' ', 'a'] [' ', '\t', '-', 'r', '\x0c', 'a'] :=
      .gap (g := [' ', '\t']) (by decide) (List.all_eq_true.mp (by decide))
        (.keep _ (.keep _ htail))
    exact ⟨['\u3000'], ['r', 'm', ' ', '\t', '-', 'r', '\x0c', 'a'], ['\u00a0'], by decide,
      .keep _ (.keep _ hflag), List.all_eq_true.mp (by decide), List.all_eq_true.mp (by decide)⟩
  exact ⟨htypable, hspread, (parse_inverts.1 _ htypable).2 _ hspread⟩

end Command

end Shell

end SectorChain

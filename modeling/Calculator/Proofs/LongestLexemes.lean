import Calculator.Proofs.TokenLines

/-!
# Longest lexemes from left to right

What a lexeme may look like is said here without any cutting: single signs, powers, names as long as
their letters go on, and numbers as long as digits and a first point do. A text is read as tokens
exactly when it is made of blanks and such lexemes, and else fails where the first of them is
missing: at a point without a digit, or at a character that starts no lexeme.
-/
namespace Calculator.Lexeme
open Blank Alphabet

/-- A text with the property that has it no more when any of what follows is added. -/
def Longest (P : List Char → Prop) (l rest : List Char) : Prop :=
  P l ∧ ∀ more, more ≠ [] → more <+: rest → ¬P (l ++ more)

def IsName (l : List Char) : Prop := l ≠ [] ∧ ∀ c ∈ l, isNameChar c = true

/-- Digits with at most one point among them; there may be no digit at all. -/
def IsNumeral (l : List Char) : Prop := (∀ c ∈ l, isNumberChar c = true) ∧ l.count '.' ≤ 1

/-- The text `l` in front of `rest` is a lexeme, which stands for the token. -/
inductive Means : List Char → List Char → Token → Prop
  | leftParen (rest : List Char) : Means ['('] rest .leftParen
  | rightParen (rest : List Char) : Means [')'] rest .rightParen
  | sign {o : BinaryOperator} (unstarred : o ≠ .mul) (rest : List Char) :
      Means [o.symbol] rest (.operator o)
  | power (rest : List Char) : Means ['*', '*'] rest (.operator .pow)
  | star {rest : List Char} (last : rest.head? ≠ some '*') : Means ['*'] rest (.operator .mul)
  | name {l rest : List Char} (longest : Longest IsName l rest) :
      Means l rest (.function (String.ofList l))
  | number {l rest : List Char} {d : Decimal} (longest : Longest IsNumeral l rest)
      (digit : ∃ c ∈ l, c.isDigit = true) (read : Decimal.ofChars? l = some d) :
      Means l rest (.number d.toFloat)

/-- The text is made of blanks and of these lexemes, each with its token. -/
inductive Splits : List Char → List (List Char × Token) → Prop
  | nil : Splits [] []
  | blank {c : Char} {cs : List Char} {ls : List (List Char × Token)} (blank : isBlank c = true)
      (behind : Splits cs ls) : Splits (c :: cs) ls
  | lexeme {l rest : List Char} {t : Token} {ls : List (List Char × Token)}
      (means : Means l rest t) (behind : Splits rest ls) : Splits (l ++ rest) ((l, t) :: ls)

/-- Behind blanks and lexemes there is a first place where no lexeme starts. A point there is a
number without a digit; any other character is one that no lexeme starts with. -/
inductive Breaks : List Char → Failure → Prop
  | blank {c : Char} {cs : List Char} {failure : Failure} (blank : isBlank c = true)
      (behind : Breaks cs failure) : Breaks (c :: cs) failure
  | lexeme {l rest : List Char} {t : Token} {failure : Failure} (means : Means l rest t)
      (behind : Breaks rest failure) : Breaks (l ++ rest) failure
  | point {rest : List Char} (longest : Longest IsNumeral ['.'] rest) :
      Breaks ('.' :: rest) .malformed
  | stray {c : Char} (cs : List Char) (unblank : isBlank c = false)
      (starts : ∀ l rest t, ¬Means (c :: l) rest t) : Breaks (c :: cs) (.strayCharacter c)

section Longest

variable {l rest : List Char}

theorem Longest.of_head {P : List Char → Prop} (holds : P l)
    (stop : ∀ b ∈ rest.head?, ∀ more, ¬P (l ++ b :: more)) : Longest P l rest := by
  refine ⟨holds, fun more nonempty begins => ?_⟩
  obtain ⟨b, more, rfl⟩ := List.exists_cons_of_ne_nil nonempty
  obtain ⟨behind, rfl⟩ := begins
  exact stop b rfl more

theorem Longest.head {P : List Char → Prop} (h : Longest P l rest) :
    ∀ b ∈ rest.head?, ¬P (l ++ [b]) := by
  intro b head
  obtain ⟨behind, rfl⟩ := List.head?_eq_some_iff.mp head
  exact h.2 [b] (List.cons_ne_nil b []) ⟨behind, rfl⟩

theorem isName_append {b : Char} (h : IsName l) (name : isNameChar b = true) :
    IsName (l ++ [b]) := by
  refine ⟨List.append_ne_nil_of_left_ne_nil h.1 _, fun c mem => ?_⟩
  obtain old | new := List.mem_append.mp mem
  · exact h.2 c old
  · rwa [List.mem_singleton.mp new]

theorem Longest.head_not_name (h : Longest IsName l rest) :
    ∀ b ∈ rest.head?, isNameChar b = false := by
  intro b head
  rw [← Bool.not_eq_true]
  exact fun name => h.head b head (isName_append h.1 name)

theorem longest_name {c : Char} (name : isNameChar c = true) (cs : List Char) :
    Longest IsName (c :: cs.takeWhile isNameChar) (cs.dropWhile isNameChar) := by
  refine .of_head ⟨List.cons_ne_nil c _, ?_⟩ fun b head more named => ?_
  · rintro d (_ | ⟨_, mem⟩)
    · exact name
    · exact List.mem_takeWhile_imp mem
  · have letter := named.2 b (List.mem_append_right _ List.mem_cons_self)
    rw [head_dropWhile isNameChar cs b head] at letter
    cases letter

end Longest

section Numerals

variable {l rest : List Char}

theorem IsNumeral.cases (h : IsNumeral l) :
    (∀ c ∈ l, c.isDigit = true) ∨ ∃ whole fraction, l = whole ++ '.' :: fraction ∧
      ∀ c ∈ whole ++ fraction, c.isDigit = true := by
  have digit {c : Char} (mem : c ∈ l) (other : c ≠ '.') : c.isDigit = true := by
    simpa [isNumberChar, other] using h.1 c mem
  by_cases point : '.' ∈ l
  · obtain ⟨whole, fraction, rfl⟩ := List.append_of_mem point
    have single := h.2
    rw [List.count_append, List.count_cons_self] at single
    refine .inr ⟨whole, fraction, rfl, fun c mem => ?_⟩
    obtain first | last := List.mem_append.mp mem
    · refine digit (List.mem_append_left _ first) ?_
      rintro rfl
      have := List.count_pos_iff.mpr first
      omega
    · refine digit (List.mem_append_right _ (List.mem_cons_of_mem _ last)) ?_
      rintro rfl
      have := List.count_pos_iff.mpr last
      omega
  · refine .inl fun c mem => digit mem ?_
    rintro rfl
    exact point mem

theorem isNumeral_digits (digits : ∀ c ∈ l, c.isDigit = true) : IsNumeral l := by
  have unpointed : '.' ∉ l := by
    intro point
    cases digits '.' point
  refine ⟨fun c mem => isNumberChar_of_isDigit (digits c mem), ?_⟩
  rw [List.count_eq_zero.mpr unpointed]
  exact Nat.zero_le 1

theorem isNumeral_pointed {whole fraction : List Char}
    (digits : ∀ c ∈ whole ++ fraction, c.isDigit = true) :
    IsNumeral (whole ++ '.' :: fraction) := by
  obtain ⟨numbers, -⟩ := isNumeral_digits digits
  have unpointed : '.' ∉ whole ++ fraction := by
    intro point
    cases digits '.' point
  constructor
  · intro c mem
    simp only [List.mem_append, List.mem_cons] at mem numbers
    obtain first | rfl | last := mem
    · exact numbers c (.inl first)
    · rfl
    · exact numbers c (.inr last)
  · have none := List.count_eq_zero.mpr unpointed
    rw [List.count_append] at none
    rw [List.count_append, List.count_cons_self]
    omega

theorem Longest.head_not_digit (h : Longest IsNumeral l rest) :
    ∀ b ∈ rest.head?, b.isDigit = false := by
  intro b head
  rw [← Bool.not_eq_true]
  intro digit
  apply h.head b head
  constructor
  · intro c mem
    obtain old | new := List.mem_append.mp mem
    · exact h.1.1 c old
    · rw [List.mem_singleton.mp new]
      exact isNumberChar_of_isDigit digit
  · have other : b ≠ '.' := by
      rintro rfl
      cases digit
    rw [List.count_append, List.count_singleton, if_neg (by simpa using other)]
    exact h.1.2

theorem Longest.head_ne_point (h : Longest IsNumeral l rest)
    (digits : ∀ c ∈ l, c.isDigit = true) : rest.head? ≠ some '.' := by
  intro head
  apply h.head '.' head
  exact isNumeral_pointed (by simpa using digits)

/-- The longest numeral that a text starts with is the one cut out of it. -/
theorem cutNumber_longest (h : Longest IsNumeral l rest) : cutNumber (l ++ rest) = (l, rest) := by
  have stop := h.head_not_digit
  obtain digits | ⟨whole, fraction, rfl, digits⟩ := h.1.cases
  · obtain ⟨taken, dropped⟩ := span_append (s := l) fun _ => stop
    have point := h.head_ne_point digits
    rw [List.dropWhile_eq_nil_iff.mpr digits, List.nil_append] at dropped
    rw [List.takeWhile_eq_self_iff.mpr digits] at taken
    rw [cutNumber_of_not_point (by rwa [dropped]), taken, dropped]
  · have first : ∀ c ∈ whole, c.isDigit = true := fun c mem => digits c (List.mem_append_left _ mem)
    have last : ∀ c ∈ fraction, c.isDigit = true :=
      fun c mem => digits c (List.mem_append_right _ mem)
    obtain ⟨taken, dropped⟩ := span_append (s := fraction) fun _ => stop
    have behind : (whole ++ '.' :: fraction ++ rest).dropWhile Char.isDigit
        = '.' :: (fraction ++ rest) := by
      rw [List.append_assoc, List.dropWhile_append_of_pos first]
      exact List.dropWhile_cons_of_neg (by decide)
    have before : (whole ++ '.' :: fraction ++ rest).takeWhile Char.isDigit = whole := by
      rw [List.append_assoc, List.takeWhile_append_of_pos first]
      exact (congrArg (whole ++ ·) (List.takeWhile_cons_of_neg (by decide))).trans
        (List.append_nil whole)
    rw [cutNumber_of_point behind, before, taken, dropped, List.takeWhile_eq_self_iff.mpr last,
      List.dropWhile_eq_nil_iff.mpr last, List.nil_append]

theorem IsNumeral.eq_point {b : Char} {more : List Char} (h : IsNumeral (l ++ b :: more))
    (other : b.isDigit = false) : b = '.' := by
  have number := h.1 b (List.mem_append_right _ List.mem_cons_self)
  simpa [isNumberChar, other] using number

theorem longest_cutNumber (s : List Char) :
    Longest IsNumeral (cutNumber s).1 (cutNumber s).2 := by
  have digits {s : List Char} : ∀ c ∈ s.takeWhile Char.isDigit, c.isDigit = true :=
    fun _ h => List.mem_takeWhile_imp h
  by_cases point : (s.dropWhile Char.isDigit).head? = some '.'
  · obtain ⟨rest, behind⟩ := List.head?_eq_some_iff.mp point
    rw [cutNumber_of_point behind]
    refine .of_head (isNumeral_pointed fun c mem => ?_) fun b head more longer => ?_
    · obtain first | last := List.mem_append.mp mem
      · exact digits c first
      · exact digits c last
    · -- A second point ends the numeral.
      obtain rfl := longer.eq_point (head_dropWhile Char.isDigit rest b head)
      have single := longer.2
      simp only [List.count_append, List.count_cons_self] at single
      omega
  · rw [cutNumber_of_not_point point]
    refine .of_head (isNumeral_digits digits) fun b head more longer => ?_
    obtain rfl := longer.eq_point (head_dropWhile Char.isDigit s b head)
    exact point head

theorem exists_ofChars?_of_digit (h : IsNumeral l) (digit : ∃ c ∈ l, c.isDigit = true) :
    ∃ d, Decimal.ofChars? l = some d := by
  obtain ⟨c, mem, digit⟩ := digit
  obtain digits | ⟨whole, fraction, rfl, digits⟩ := h.cases
  · exact ⟨_, Decimal.ofChars?_digits (List.ne_nil_of_mem mem) digits⟩
  · refine ⟨_, Decimal.ofChars?_point ?_ digits⟩
    intro none
    obtain ⟨rfl, rfl⟩ := List.append_eq_nil_iff.mp none
    obtain rfl := List.mem_singleton.mp mem
    cases digit

end Numerals

section Cutting

variable {c : Char} {l rest : List Char} {t : Token}

/-- A lexeme is what is cut out where it starts, and it is read as the token it stands for. -/
theorem Means.cut (h : Means l rest t) :
    ∃ c cs, l = c :: cs ∧ isBlank c = false ∧ cut c (cs ++ rest) = (l, rest) ∧
      Token.ofLexeme l = .ok t := by
  cases h with
  | leftParen => exact ⟨'(', [], rfl, by decide, cut_single rfl rfl (by simp), rfl⟩
  | rightParen => exact ⟨')', [], rfl, by decide, cut_single rfl rfl (by simp), rfl⟩
  | @sign o unstarred =>
    refine ⟨o.symbol, [], rfl, ?_, ?_, Token.ofLexeme_operator o⟩
    · cases o <;> decide
    · cases o with
      | mul => exact absurd rfl unstarred
      | add | sub | div | pow => exact cut_single rfl rfl (by simp [BinaryOperator.symbol])
  | power => exact ⟨'*', ['*'], rfl, by decide, rfl, rfl⟩
  | star last => exact ⟨'*', [], rfl, by decide, cut_single rfl rfl fun _ => last, rfl⟩
  | name longest =>
    obtain ⟨nonempty, names⟩ := longest.1
    obtain ⟨c, cs, rfl⟩ := List.exists_cons_of_ne_nil nonempty
    have first := names c List.mem_cons_self
    have later : ∀ d ∈ cs, isNameChar d = true := fun d mem => names d (List.mem_cons_of_mem c mem)
    obtain ⟨taken, dropped⟩ := span_append (s := cs) fun _ => longest.head_not_name
    refine ⟨c, cs, rfl, not_isBlank_of_isNameChar first, ?_, Token.ofLexeme_name nonempty names⟩
    rw [cut_name first, taken, dropped, List.takeWhile_eq_self_iff.mpr later,
      List.dropWhile_eq_nil_iff.mpr later, List.nil_append]
  | number longest digit read =>
    obtain ⟨d, mem, -⟩ := digit
    obtain ⟨c, cs, rfl⟩ := List.exists_cons_of_ne_nil (List.ne_nil_of_mem mem)
    have number := longest.1.1 c List.mem_cons_self
    refine ⟨c, cs, rfl, not_isBlank_of_isNumberChar number, ?_, ?_⟩
    · rw [cut_number number, ← List.cons_append, cutNumber_longest longest]
    · rw [Token.ofLexeme_number number, read]

theorem Means.ofChars (h : Means l rest t) :
    Token.ofChars (l ++ rest) = do return t :: (← Token.ofChars rest) := by
  obtain ⟨c, cs, rfl, blank, cut, read⟩ := h.cut
  rw [List.cons_append, Token.ofChars_cut blank, cut, read]
  rfl

theorem Means.ne_nil (h : Means l rest t) : l ≠ [] := by
  obtain ⟨c, cs, rfl, -⟩ := h.cut
  exact List.cons_ne_nil c cs

theorem Means.isAccepted (h : Means l rest t) : ∀ c ∈ l, isAccepted c = true := by
  intro c mem
  cases h with
  | leftParen =>
    rw [List.mem_singleton.mp mem]
    rfl
  | rightParen =>
    rw [List.mem_singleton.mp mem]
    rfl
  | @sign o _ _ =>
    rw [List.mem_singleton.mp mem]
    exact isAccepted_symbol o
  | power =>
    obtain rfl := List.eq_of_mem_replicate (n := 2) mem
    exact isAccepted_symbol .mul
  | star last =>
    rw [List.mem_singleton.mp mem]
    exact isAccepted_symbol .mul
  | name longest => simp [Alphabet.isAccepted, longest.1.2 c mem]
  | number longest digit read => simp [Alphabet.isAccepted, longest.1.1 c mem]

end Cutting

section Starting

variable {c : Char}

theorem IsNumeral.eq_lone_point {l : List Char} (h : IsNumeral (c :: l))
    (none : ¬∃ d ∈ c :: l, d.isDigit = true) : c = '.' ∧ l = [] := by
  have point : ∀ d ∈ c :: l, d = '.' := by
    intro d mem
    have other : ¬d.isDigit = true := fun digit => none ⟨d, mem, digit⟩
    simpa [isNumberChar, other] using h.1 d mem
  refine ⟨point c List.mem_cons_self, ?_⟩
  have single := h.2
  rw [List.eq_replicate_iff.mpr ⟨rfl, point⟩, List.count_replicate_self, List.length_cons] at single
  exact List.eq_nil_of_length_eq_zero (by omega)

/-- A number starts, unless a point has no digit behind it. -/
theorem means_or_point (number : isNumberChar c = true) (cs : List Char) :
    (∃ l rest t, c :: cs = l ++ rest ∧ Means l rest t) ∨
      ∃ failure, Breaks (c :: cs) failure := by
  have longest := longest_cutNumber (c :: cs)
  have whole := cutNumber_append (c :: cs)
  have nonempty : (cutNumber (c :: cs)).1 ≠ [] := cutNumber_ne_nil number
  obtain ⟨d, l, first⟩ := List.exists_cons_of_ne_nil nonempty
  rw [first] at longest whole
  by_cases digit : ∃ e ∈ d :: l, e.isDigit = true
  · obtain ⟨value, read⟩ := exists_ofChars?_of_digit longest.1 digit
    exact .inl ⟨d :: l, _, _, whole.symm, .number longest digit read⟩
  · obtain ⟨rfl, rfl⟩ := longest.1.eq_lone_point digit
    rw [← whole]
    exact .inr ⟨_, .point longest⟩

theorem means_of_isSign (sign : isSign c = true) (cs : List Char) :
    ∃ l rest t, c :: cs = l ++ rest ∧ Means l rest t := by
  simp only [isSign, Bool.or_eq_true, decide_eq_true_eq, Option.isSome_iff_exists] at sign
  obtain (rfl | rfl) | ⟨o, read⟩ := sign
  · exact ⟨['('], cs, _, rfl, .leftParen cs⟩
  · exact ⟨[')'], cs, _, rfl, .rightParen cs⟩
  · obtain rfl := symbol_of_ofSymbol? read
    by_cases star : o = .mul
    · obtain rfl := star
      by_cases second : cs.head? = some '*'
      · obtain ⟨rest, rfl⟩ := List.head?_eq_some_iff.mp second
        exact ⟨['*', '*'], rest, _, rfl, .power rest⟩
      · exact ⟨['*'], cs, _, rfl, .star second⟩
    · exact ⟨[o.symbol], cs, _, rfl, .sign star cs⟩

theorem exists_means (accepted : isAccepted c = true) : ∃ l rest t, Means (c :: l) rest t := by
  rw [isAccepted, Bool.or_eq_true, Bool.or_eq_true] at accepted
  obtain (name | number) | sign := accepted
  · exact ⟨_, _, _, .name (longest_name name [])⟩
  · have numeral : IsNumeral [c, '0'] := by
      by_cases digit : c.isDigit = true
      · exact isNumeral_digits (by simp [digit])
      · obtain rfl : c = '.' := by simpa [isNumberChar, digit] using number
        show IsNumeral ([] ++ '.' :: ['0'])
        exact isNumeral_pointed (by simp)
    obtain ⟨d, read⟩ := exists_ofChars?_of_digit numeral ⟨'0', by simp, rfl⟩
    exact ⟨['0'], [], _, .number (.of_head numeral (by simp)) ⟨'0', by simp, rfl⟩ read⟩
  · obtain ⟨l, rest, t, whole, means⟩ := means_of_isSign sign []
    obtain ⟨d, l, rfl⟩ := List.exists_cons_of_ne_nil means.ne_nil
    obtain ⟨rfl, -⟩ := List.cons.inj whole
    exact ⟨l, rest, t, means⟩

theorem refused_of_starts (starts : ∀ l rest t, ¬Means (c :: l) rest t) : isAccepted c = false := by
  rw [← Bool.not_eq_true]
  intro accepted
  obtain ⟨l, rest, t, means⟩ := exists_means accepted
  exact starts l rest t means

/-- Where no blank stands, a lexeme starts or the text breaks. -/
theorem means_or_breaks (blank : isBlank c = false) (cs : List Char) :
    (∃ l rest t, c :: cs = l ++ rest ∧ Means l rest t) ∨
      ∃ failure, Breaks (c :: cs) failure := by
  by_cases accepted : isAccepted c = true
  · rw [isAccepted, Bool.or_eq_true, Bool.or_eq_true] at accepted
    obtain (name | number) | sign := accepted
    · refine .inl ⟨_, _, _, ?_, .name (longest_name name cs)⟩
      rw [List.cons_append, List.takeWhile_append_dropWhile]
    · exact means_or_point number cs
    · exact .inl (means_of_isSign sign cs)
  · refine .inr ⟨_, .stray cs blank fun l rest t means => accepted ?_⟩
    exact means.isAccepted c List.mem_cons_self

end Starting

section Texts

variable {s : List Char} {ls : List (List Char × Token)} {failure : Failure}

/-- Every text either is made of blanks and lexemes or breaks. -/
theorem splits_or_breaks (s : List Char) :
    (∃ ls, Splits s ls) ∨ ∃ failure, Breaks s failure := by
  induction s using ofChars.induct with
  | case1 => exact .inl ⟨[], .nil⟩
  | case2 c cs blank ih =>
    obtain ⟨ls, splits⟩ | ⟨failure, breaks⟩ := ih
    · exact .inl ⟨ls, .blank blank splits⟩
    · exact .inr ⟨failure, .blank blank breaks⟩
  | case3 c cs blank ih =>
    have blank : isBlank c = false := by simpa using blank
    obtain ⟨l, rest, t, whole, means⟩ | breaks := means_or_breaks blank cs
    · obtain ⟨d, ds, rfl, -, cut, -⟩ := means.cut
      rw [List.cons_append] at whole
      obtain ⟨rfl, tail⟩ := List.cons.inj whole
      rw [tail, cut] at ih
      rw [whole]
      obtain ⟨ls, splits⟩ | ⟨failure, breaks⟩ := ih
      · exact .inl ⟨_, .lexeme means splits⟩
      · exact .inr ⟨failure, .lexeme means breaks⟩
    · exact .inr breaks

theorem Splits.ofChars (h : Splits s ls) : Token.ofChars s = .ok (ls.map Prod.snd) := by
  induction h with
  | nil => exact Token.ofChars_nil
  | blank blank behind ih => rw [Token.ofChars_blank blank, ih]
  | lexeme means behind ih =>
    rw [means.ofChars, ih]
    rfl

theorem Breaks.ofChars (h : Breaks s failure) : Token.ofChars s = .error failure := by
  induction h with
  | blank blank behind ih => rw [Token.ofChars_blank blank, ih]
  | lexeme means behind ih =>
    rw [means.ofChars, ih]
    rfl
  | @point rest longest =>
    have cut : cut '.' rest = (['.'], rest) :=
      (cut_number rfl rest).trans (cutNumber_longest longest)
    rw [Token.ofChars_cut (by decide), cut]
    rfl
  | stray cs unblank starts => exact Token.ofChars_refused unblank (refused_of_starts starts) cs

theorem exists_splits_of_ofChars {ts : List Token} (read : Token.ofChars s = .ok ts) :
    ∃ ls, Splits s ls ∧ ls.map Prod.snd = ts := by
  obtain ⟨ls, splits⟩ | ⟨failure, breaks⟩ := splits_or_breaks s
  · rw [splits.ofChars] at read
    exact ⟨ls, splits, Except.ok.inj read⟩
  · rw [breaks.ofChars] at read
    cases read

theorem breaks_of_ofChars (read : Token.ofChars s = .error failure) : Breaks s failure := by
  obtain ⟨ls, splits⟩ | ⟨failure', breaks⟩ := splits_or_breaks s
  · rw [splits.ofChars] at read
    cases read
  · rw [breaks.ofChars] at read
    rwa [← Except.error.inj read]

/-- The lexemes hold all characters but the blanks, in their order, and none is empty. -/
theorem Splits.flatten (h : Splits s ls) :
    (ls.map Prod.fst).flatten = s.filter (fun c => !isBlank c) ∧ ∀ l ∈ ls, l.1 ≠ [] := by
  induction h with
  | nil => exact ⟨rfl, by simp⟩
  | blank blank behind ih => simpa [blank] using ih
  | @lexeme l rest t ls means behind ih =>
    have kept : l.filter (fun c => !isBlank c) = l := by
      rw [List.filter_eq_self]
      intro c mem
      rw [not_isBlank_of_isAccepted (means.isAccepted c mem)]
      rfl
    rw [List.map_cons, List.flatten_cons, ih.1, List.filter_append, kept]
    exact ⟨rfl, List.forall_mem_cons.mpr ⟨means.ne_nil, ih.2⟩⟩

end Texts

/-- Reading is cutting blanks and longest lexemes from left to right: the tokens of a text are those
of the lexemes that it splits into, and it fails where it breaks. The lexemes hold every character
that is no blank, each once and in order. -/
theorem ofChars_iff_splits (s : List Char) :
    (∀ ts, Token.ofChars s = .ok ts ↔ ∃ ls, Splits s ls ∧ ls.map Prod.snd = ts) ∧
      (∀ failure, Token.ofChars s = .error failure ↔ Breaks s failure) ∧
      ∀ ls, Splits s ls →
        (ls.map Prod.fst).flatten = s.filter (fun c => !isBlank c) ∧ ∀ l ∈ ls, l.1 ≠ [] := by
  refine ⟨fun ts => ⟨exists_splits_of_ofChars, ?_⟩,
    fun failure => ⟨breaks_of_ofChars, Breaks.ofChars⟩, fun ls splits => splits.flatten⟩
  rintro ⟨ls, splits, rfl⟩
  exact splits.ofChars

/-- A second point starts a number, the third star stands alone, and a name ends at a sign. A number
without a digit comes before the character behind it, and the other way round. -/
theorem ofChars_iff_splits_runs :
    let s := " 1.2.3***ab)".toList
    let ts : List Token := [.number 1.2, .number 0.3, .operator .pow, .operator .mul,
      .function "ab", .rightParen]
    Token.ofChars s = .ok ts ∧
      (∃ ls, Splits s ls ∧ ls.map Prod.snd = ts ∧
        (ls.map Prod.fst).flatten = s.filter (fun c => !isBlank c) ∧ ∀ l ∈ ls, l.1 ≠ []) ∧
      Breaks "2..#".toList .malformed ∧ Breaks "2 #.".toList (.strayCharacter '#') := by
  intro s ts
  have read : Token.ofChars s = .ok ts := by decide +kernel
  obtain ⟨reads, -, holds⟩ := ofChars_iff_splits s
  obtain ⟨ls, splits, tokens⟩ := (reads ts).mp read
  refine ⟨read, ⟨ls, splits, tokens, holds ls splits⟩, ?_, ?_⟩
  · exact ((ofChars_iff_splits _).2.1 _).mp (by decide +kernel)
  · exact ((ofChars_iff_splits _).2.1 _).mp (by decide +kernel)

end Calculator.Lexeme

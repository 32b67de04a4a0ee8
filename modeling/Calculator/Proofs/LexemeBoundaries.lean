import Calculator.Alphabet
import Mathlib.Data.List.TakeWhile

/-! # Where a text may be cut

A lexeme never reaches across two characters that no lexeme holds side by side. So at such a place
the lexemes of a text are those of its two parts, and the rest of the text is never looked at.
-/
namespace Calculator.Lexeme
open Blank

/-- Some lexeme holds the two characters side by side. -/
def fuses (a b : Char) : Bool :=
  isNameChar a && isNameChar b || isNumberChar a && isNumberChar b || a = '*' && b = '*'

/-- No lexeme reaches from the end of a text into the next one. -/
def Apart (s t : List Char) : Prop := ∀ a ∈ s.getLast?, ∀ b ∈ t.head?, fuses a b = false

section Characters

theorem not_isBlank_of_graphic {c : Char} (low : 0x20 < c.toNat) (high : c.toNat < 0x7F) :
    isBlank c = false := by
  simp [isBlank, ranges]
  omega

theorem toNat_of_isNameChar {c : Char} (h : isNameChar c = true) :
    97 ≤ c.toNat ∧ c.toNat ≤ 122 := by
  have range : (decide (c.val ≥ 'a'.val) && decide (c.val ≤ 'z'.val)) = true := h
  rw [Bool.and_eq_true, decide_eq_true_eq, decide_eq_true_eq] at range
  exact ⟨UInt32.le_iff_toNat_le.mp range.1, UInt32.le_iff_toNat_le.mp range.2⟩

theorem toNat_of_isNumberChar {c : Char} (h : isNumberChar c = true) :
    46 ≤ c.toNat ∧ c.toNat ≤ 57 := by
  rw [isNumberChar, Bool.or_eq_true, decide_eq_true_eq] at h
  obtain digit | rfl := h
  · simp only [Char.isDigit, Bool.and_eq_true, decide_eq_true_eq] at digit
    have low : 48 ≤ c.toNat := UInt32.le_iff_toNat_le.mp digit.1
    have high : c.toNat ≤ 57 := UInt32.le_iff_toNat_le.mp digit.2
    omega
  · decide

theorem not_isBlank_of_isNameChar {c : Char} (h : isNameChar c = true) : isBlank c = false := by
  have range := toNat_of_isNameChar h
  exact not_isBlank_of_graphic (by omega) (by omega)

theorem not_isBlank_of_isNumberChar {c : Char} (h : isNumberChar c = true) :
    isBlank c = false := by
  have range := toNat_of_isNumberChar h
  exact not_isBlank_of_graphic (by omega) (by omega)

theorem isNumberChar_of_isDigit {c : Char} (h : c.isDigit = true) : isNumberChar c = true := by
  simp [isNumberChar, h]

theorem not_name_of_number {c : Char} (h : isNumberChar c = true) : isNameChar c = false := by
  have number := toNat_of_isNumberChar h
  rw [← Bool.not_eq_true]
  intro letter
  have name := toNat_of_isNameChar letter
  omega

theorem not_name_of_not_fuses {a b : Char} (h : fuses a b = false) (name : isNameChar a = true) :
    isNameChar b = false := by
  simp only [fuses, name, Bool.or_eq_false_iff, Bool.true_and] at h
  exact h.1.1

theorem not_number_of_not_fuses {a b : Char} (h : fuses a b = false)
    (number : isNumberChar a = true) : isNumberChar b = false := by
  simp only [fuses, number, Bool.or_eq_false_iff, Bool.true_and] at h
  exact h.1.2

theorem ne_star_of_not_fuses {b : Char} (h : fuses '*' b = false) : b ≠ '*' := by
  rintro rfl
  cases h

theorem not_fuses_blank {b : Char} (blank : isBlank b = true) (a : Char) : fuses a b = false := by
  rw [← Bool.not_eq_true]
  intro both
  simp only [fuses, Bool.or_eq_true, Bool.and_eq_true, decide_eq_true_eq] at both
  obtain (⟨-, name⟩ | ⟨-, number⟩) | ⟨-, rfl⟩ := both
  · rw [not_isBlank_of_isNameChar name] at blank
    cases blank
  · rw [not_isBlank_of_isNumberChar number] at blank
    cases blank
  · cases blank

end Characters

section Apart

theorem apart_nil_right (s : List Char) : Apart s [] := by
  intro a _ b hb
  cases hb

theorem apart_blank {c : Char} (blank : isBlank c = true) (s t : List Char) : Apart s (c :: t) := by
  rintro a - b ⟨rfl⟩
  exact not_fuses_blank blank a

theorem Apart.append_right {s t : List Char} (h : Apart s t) (nonempty : t ≠ []) (t' : List Char) :
    Apart s (t ++ t') := by
  obtain ⟨b, t, rfl⟩ := List.exists_cons_of_ne_nil nonempty
  exact h

theorem Apart.of_suffix {s s' t : List Char} (h : Apart (s ++ s') t) : Apart s' t := by
  intro a ha
  apply h
  rw [List.getLast?_append, Option.mem_def.mp ha]
  rfl

theorem Apart.head_name {s t : List Char} (h : Apart s t) (nonempty : s ≠ [])
    (names : ∀ c ∈ s, isNameChar c = true) : ∀ b ∈ t.head?, isNameChar b = false := by
  intro b hb
  have last := h _ (List.getLast?_eq_some_getLast nonempty) b hb
  exact not_name_of_not_fuses last (names _ (List.getLast_mem nonempty))

theorem Apart.head_number {s t : List Char} (h : Apart s t) (nonempty : s ≠ [])
    (numbers : ∀ c ∈ s, isNumberChar c = true) : ∀ b ∈ t.head?, isNumberChar b = false := by
  intro b hb
  have last := h _ (List.getLast?_eq_some_getLast nonempty) b hb
  exact not_number_of_not_fuses last (numbers _ (List.getLast_mem nonempty))

end Apart

section Cutting

theorem span_append {p : Char → Bool} {s t : List Char}
    (h : (∀ c ∈ s, p c = true) → ∀ b ∈ t.head?, p b = false) :
    (s ++ t).takeWhile p = s.takeWhile p ∧ (s ++ t).dropWhile p = s.dropWhile p ++ t := by
  induction s with
  | nil =>
    cases t with
    | nil => exact ⟨rfl, rfl⟩
    | cons b t =>
      have stop := h (by simp) b rfl
      simp [stop]
  | cons c s ih =>
    cases hc : p c with
    | false => simp [hc]
    | true =>
      obtain ⟨taken, dropped⟩ := ih fun all => h (by simpa [hc] using all)
      simp [hc, taken, dropped]

theorem head_dropWhile (p : Char → Bool) (s : List Char) :
    ∀ b ∈ (s.dropWhile p).head?, p b = false := by
  intro b head
  have stop := List.head?_dropWhile_not p s
  rw [Option.mem_def.mp head] at stop
  exact stop

theorem cutNumber_of_not_point {s : List Char} (h : (s.dropWhile Char.isDigit).head? ≠ some '.') :
    cutNumber s = (s.takeWhile Char.isDigit, s.dropWhile Char.isDigit) := by
  unfold cutNumber
  split
  · next rest behind => exact absurd (by rw [behind]; rfl) h
  · rfl

theorem cutNumber_of_point {s rest : List Char} (h : s.dropWhile Char.isDigit = '.' :: rest) :
    cutNumber s = (s.takeWhile Char.isDigit ++ '.' :: rest.takeWhile Char.isDigit,
      rest.dropWhile Char.isDigit) := by
  simp only [cutNumber, h]

theorem not_digit_of_not_number {c : Char} (h : isNumberChar c = false) :
    c.isDigit = false ∧ c ≠ '.' := by
  simpa [isNumberChar] using h

theorem cutNumber_digits {s : List Char} (digits : ∀ c ∈ s, c.isDigit = true) :
    cutNumber s = (s, []) := by
  have behind := List.dropWhile_eq_nil_iff.mpr digits
  rw [cutNumber_of_not_point (by simp [behind]), behind, List.takeWhile_eq_self_iff.mpr digits]

theorem cutNumber_pointed {whole fraction : List Char}
    (digits : ∀ c ∈ whole ++ fraction, c.isDigit = true) :
    cutNumber (whole ++ '.' :: fraction) = (whole ++ '.' :: fraction, []) := by
  have first : ∀ c ∈ whole, c.isDigit = true := fun c h => digits c (List.mem_append_left _ h)
  have last : ∀ c ∈ fraction, c.isDigit = true := fun c h => digits c (List.mem_append_right _ h)
  have behind : (whole ++ '.' :: fraction).dropWhile Char.isDigit = '.' :: fraction := by
    rw [List.dropWhile_append_of_pos first, List.dropWhile_cons_of_neg (by decide)]
  have before : (whole ++ '.' :: fraction).takeWhile Char.isDigit = whole := by
    rw [List.takeWhile_append_of_pos first, List.takeWhile_cons_of_neg (by decide),
      List.append_nil]
  rw [cutNumber_of_point behind, before, List.takeWhile_eq_self_iff.mpr last,
    List.dropWhile_eq_nil_iff.mpr last]

theorem cutNumber_cutNumber (s : List Char) :
    cutNumber (cutNumber s).1 = ((cutNumber s).1, []) := by
  have digits : ∀ {s : List Char}, ∀ c ∈ s.takeWhile Char.isDigit, c.isDigit = true :=
    fun _ h => List.mem_takeWhile_imp h
  by_cases point : (s.dropWhile Char.isDigit).head? = some '.'
  · obtain ⟨rest, behind⟩ := List.head?_eq_some_iff.mp point
    rw [cutNumber_of_point behind]
    apply cutNumber_pointed
    intro c h
    obtain whole | fraction := List.mem_append.mp h
    · exact digits c whole
    · exact digits c fraction
  · rw [cutNumber_of_not_point point]
    exact cutNumber_digits digits

theorem cutNumber_of_apart {s t : List Char} (nonempty : s ≠ []) (apart : Apart s t) :
    cutNumber (s ++ t) = ((cutNumber s).1, (cutNumber s).2 ++ t) := by
  have whole := List.takeWhile_append_dropWhile (p := Char.isDigit) (l := s)
  have stop : (∀ c ∈ s, c.isDigit = true) → ∀ b ∈ t.head?, isNumberChar b = false :=
    fun digits => apart.head_number nonempty fun c h => isNumberChar_of_isDigit (digits c h)
  obtain ⟨taken, dropped⟩ := span_append (s := s) (t := t) (p := Char.isDigit)
    fun digits b hb => (not_digit_of_not_number (stop digits b hb)).1
  by_cases point : (s.dropWhile Char.isDigit).head? = some '.'
  · -- The digits behind the point may reach the end of `s`, those before it cannot.
    obtain ⟨rest, behind⟩ := List.head?_eq_some_iff.mp point
    rw [behind] at whole dropped
    rw [List.cons_append] at dropped
    rw [← whole] at apart
    have stop' : (∀ c ∈ rest, c.isDigit = true) → ∀ b ∈ t.head?, isNumberChar b = false := by
      intro digits
      apply apart.of_suffix.head_number (by simp)
      rintro c (_ | ⟨_, h⟩)
      · rfl
      · exact isNumberChar_of_isDigit (digits c h)
    obtain ⟨taken', dropped'⟩ := span_append (s := rest) (t := t) (p := Char.isDigit)
      fun digits b hb => (not_digit_of_not_number (stop' digits b hb)).1
    rw [cutNumber_of_point behind, cutNumber_of_point dropped, taken, taken', dropped']
  · have point' : ((s ++ t).dropWhile Char.isDigit).head? ≠ some '.' := by
      rw [dropped]
      cases behind : s.dropWhile Char.isDigit with
      | nil =>
        -- A point at the start of `t` would fuse with the digit at the end of `s`.
        intro h
        have digits := List.dropWhile_eq_nil_iff.mp behind
        exact (not_digit_of_not_number (stop digits '.' h)).2 rfl
      | cons c rest =>
        rw [behind] at point
        exact point
    rw [cutNumber_of_not_point point, cutNumber_of_not_point point', taken, dropped]

theorem cut_name {c : Char} (name : isNameChar c = true) (cs : List Char) :
    cut c cs = (c :: cs.takeWhile isNameChar, cs.dropWhile isNameChar) := by
  unfold cut
  rw [if_pos name]

theorem cut_number {c : Char} (number : isNumberChar c = true) (cs : List Char) :
    cut c cs = cutNumber (c :: cs) := by
  have name := not_name_of_number number
  unfold cut
  rw [if_neg (by simp [name]), if_pos number]

theorem cut_single {c : Char} {cs : List Char} (name : isNameChar c = false)
    (number : isNumberChar c = false) (star : c = '*' → cs.head? ≠ some '*') :
    cut c cs = ([c], cs) := by
  unfold cut
  rw [if_neg (by simp [name]), if_neg (by simp [number])]
  split
  · exact absurd rfl (star rfl)
  · rfl

/-- A lexeme ends where the text may be cut. -/
theorem cut_of_apart {c : Char} {s t : List Char} (apart : Apart (c :: s) t) :
    cut c (s ++ t) = ((cut c s).1, (cut c s).2 ++ t) := by
  by_cases name : isNameChar c = true
  · obtain ⟨taken, dropped⟩ := span_append (s := s) (t := t) (p := isNameChar) fun names =>
      apart.head_name (by simp) (by simpa [name] using names)
    rw [cut_name name, cut_name name, taken, dropped]
  rw [Bool.not_eq_true] at name
  by_cases number : isNumberChar c = true
  · rw [cut_number number, cut_number number]
    exact cutNumber_of_apart (List.cons_ne_nil c s) apart
  rw [Bool.not_eq_true] at number
  by_cases power : c = '*' ∧ s.head? = some '*'
  · obtain ⟨rfl, second⟩ := power
    obtain ⟨rest, rfl⟩ := List.head?_eq_some_iff.mp second
    rfl
  · have single : c = '*' → s.head? ≠ some '*' := fun star second => power ⟨star, second⟩
    have single' : c = '*' → (s ++ t).head? ≠ some '*' := by
      rintro rfl second
      cases s with
      | nil => exact ne_star_of_not_fuses (apart '*' rfl '*' second) rfl
      | cons d s => exact single rfl second
    rw [cut_single name number single, cut_single name number single']

end Cutting

section Lexemes

theorem ofChars_nil : ofChars [] = [] := by
  rw [ofChars]

theorem ofChars_blank {c : Char} (h : isBlank c = true) (cs : List Char) :
    ofChars (c :: cs) = ofChars cs := by
  rw [ofChars, if_pos h]

theorem ofChars_cut {c : Char} (h : isBlank c = false) (cs : List Char) :
    ofChars (c :: cs) = (cut c cs).1 :: ofChars (cut c cs).2 := by
  rw [ofChars, if_neg (by simp [h])]

/-- The lexemes of a text are those of its parts wherever it may be cut. -/
theorem ofChars_append {s t : List Char} (apart : Apart s t) :
    ofChars (s ++ t) = ofChars s ++ ofChars t := by
  induction s using ofChars.induct with
  | case1 => rw [ofChars_nil, List.nil_append, List.nil_append]
  | case2 c cs blank ih =>
    rw [List.cons_append, ofChars_blank blank, ofChars_blank blank]
    exact ih (apart.of_suffix (s := [c]))
  | case3 c cs blank ih =>
    have blank : isBlank c = false := by simpa using blank
    have whole := cut_append c cs
    rw [List.cons_append, ofChars_cut blank, ofChars_cut blank, cut_of_apart apart]
    rw [← whole] at apart
    rw [ih apart.of_suffix, List.cons_append]

def IsLexeme (l : List Char) : Prop := ofChars l = [l]

theorem isLexeme_of_cut {c : Char} {cs : List Char} (blank : isBlank c = false)
    (whole : cut c cs = (c :: cs, [])) : IsLexeme (c :: cs) := by
  rw [IsLexeme, ofChars_cut blank, whole, ofChars_nil]

theorem isLexeme_name {s : List Char} (nonempty : s ≠ [])
    (names : ∀ c ∈ s, isNameChar c = true) : IsLexeme s := by
  cases s with
  | nil => exact absurd rfl nonempty
  | cons c cs =>
    have first := names c List.mem_cons_self
    have rest : ∀ d ∈ cs, isNameChar d = true := fun d h => names d (List.mem_cons_of_mem c h)
    apply isLexeme_of_cut (not_isBlank_of_isNameChar first)
    rw [cut_name first, List.takeWhile_eq_self_iff.mpr rest, List.dropWhile_eq_nil_iff.mpr rest]

theorem isLexeme_number {s : List Char} (nonempty : s ≠ [])
    (numbers : ∀ c ∈ s, isNumberChar c = true) (whole : cutNumber s = (s, [])) : IsLexeme s := by
  cases s with
  | nil => exact absurd rfl nonempty
  | cons c cs =>
    have first := numbers c List.mem_cons_self
    apply isLexeme_of_cut (not_isBlank_of_isNumberChar first)
    rw [cut_number first, whole]

theorem cut_cut (c : Char) (cs : List Char) :
    ∃ l, (cut c cs).1 = c :: l ∧ cut c l = (c :: l, []) := by
  by_cases name : isNameChar c = true
  · have names : ∀ d ∈ cs.takeWhile isNameChar, isNameChar d = true :=
      fun d h => List.mem_takeWhile_imp h
    refine ⟨cs.takeWhile isNameChar, by rw [cut_name name], ?_⟩
    rw [cut_name name, List.takeWhile_eq_self_iff.mpr names, List.dropWhile_eq_nil_iff.mpr names]
  rw [Bool.not_eq_true] at name
  by_cases number : isNumberChar c = true
  · have nonempty : (cutNumber (c :: cs)).1 ≠ [] := cutNumber_ne_nil number
    have whole := cutNumber_append (c :: cs)
    have again := cutNumber_cutNumber (c :: cs)
    obtain ⟨d, l, first⟩ := List.exists_cons_of_ne_nil nonempty
    rw [first, List.cons_append] at whole
    obtain ⟨rfl, -⟩ := List.cons.inj whole
    refine ⟨l, by rw [cut_number number, first], ?_⟩
    rw [cut_number number, ← first, again]
  rw [Bool.not_eq_true] at number
  by_cases power : c = '*' ∧ cs.head? = some '*'
  · obtain ⟨rfl, second⟩ := power
    obtain ⟨rest, rfl⟩ := List.head?_eq_some_iff.mp second
    exact ⟨['*'], rfl, rfl⟩
  · have single : c = '*' → cs.head? ≠ some '*' := fun star second => power ⟨star, second⟩
    refine ⟨[], by rw [cut_single name number single], ?_⟩
    rw [cut_single name number (by simp)]

theorem isLexeme_of_mem_ofChars {l s : List Char} (h : l ∈ ofChars s) : IsLexeme l := by
  induction s using ofChars.induct with
  | case1 =>
    rw [ofChars_nil] at h
    cases h
  | case2 c cs blank ih =>
    rw [ofChars_blank blank] at h
    exact ih h
  | case3 c cs blank ih =>
    have blank : isBlank c = false := by simpa using blank
    rw [ofChars_cut blank] at h
    obtain rfl | behind := List.mem_cons.mp h
    · obtain ⟨rest, first, whole⟩ := cut_cut c cs
      rw [first]
      exact isLexeme_of_cut blank whole
    · exact ih behind

theorem IsLexeme.ne_nil {l : List Char} (h : IsLexeme l) : l ≠ [] := by
  rintro rfl
  rw [IsLexeme, ofChars_nil] at h
  cases h

theorem IsLexeme.names {c : Char} {l : List Char} (h : IsLexeme (c :: l))
    (name : isNameChar c = true) : ∀ d ∈ c :: l, isNameChar d = true := by
  rw [IsLexeme, ofChars_cut (not_isBlank_of_isNameChar name), cut_name name] at h
  have taken := (List.cons.inj (List.cons.inj h).1).2
  rintro d (_ | ⟨_, behind⟩)
  · exact name
  · exact List.takeWhile_eq_self_iff.mp taken d behind

end Lexemes

end Calculator.Lexeme

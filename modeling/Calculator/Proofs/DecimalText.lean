import Calculator.Proofs.NearestRounding

/-! # Written decimals

A decimal is written with digits and at most one point, and what is read back from the written form
has the same value.
-/
namespace Calculator.Decimal

def wholeChars (d : Decimal) : List Char := Nat.toDigits 10 (d.units / 10 ^ d.places)

theorem chars_of_no_fraction {d : Decimal} (h : d.fractionChars = []) :
    d.chars = d.wholeChars := by
  simp only [chars, h, wholeChars]

theorem chars_of_fraction {d : Decimal} (h : d.fractionChars ≠ []) :
    d.chars = d.wholeChars ++ '.' :: d.fractionChars := by
  unfold chars
  cases fraction : d.fractionChars with
  | nil => exact absurd fraction h
  | cons c cs => rfl

section Digits

theorem isDigit_of_mem_wholeChars {d : Decimal} {c : Char} (h : c ∈ d.wholeChars) :
    c.isDigit = true :=
  Nat.isDigit_of_mem_toDigits (by decide) (by decide) h

theorem wholeChars_ne_nil (d : Decimal) : d.wholeChars ≠ [] := Nat.toDigits_ne_nil

theorem mem_of_mem_dropFinalZeros {digits : List Char} {c : Char} (h : c ∈ dropFinalZeros digits) :
    c ∈ digits := by
  have reversed := (List.dropWhile_sublist _).mem (List.mem_reverse.mp h)
  exact List.mem_reverse.mp reversed

def placeChars (d : Decimal) : List Char :=
  List.leftpad d.places '0' (Nat.toDigits 10 (d.units % 10 ^ d.places))

theorem isDigit_of_mem_placeChars {d : Decimal} {c : Char} (h : c ∈ d.placeChars) :
    c.isDigit = true := by
  rw [placeChars, List.leftpad, List.mem_append] at h
  obtain zero | digit := h
  · rw [List.eq_of_mem_replicate zero]
    rfl
  · exact Nat.isDigit_of_mem_toDigits (by decide) (by decide) digit

theorem isDigit_of_mem_fractionChars {d : Decimal} {c : Char} (h : c ∈ d.fractionChars) :
    c.isDigit = true :=
  isDigit_of_mem_placeChars (mem_of_mem_dropFinalZeros h)

theorem isDigit_of_mem_digits {d : Decimal} {c : Char} (h : c ∈ d.wholeChars ++ d.fractionChars) :
    c.isDigit = true := by
  obtain whole | fraction := List.mem_append.mp h
  · exact isDigit_of_mem_wholeChars whole
  · exact isDigit_of_mem_fractionChars fraction

theorem mem_chars_of_digit {d : Decimal} {c : Char} (h : c ∈ d.wholeChars ++ d.fractionChars) :
    c ∈ d.chars := by
  by_cases none : d.fractionChars = []
  · rw [none, List.append_nil] at h
    rwa [chars_of_no_fraction none]
  · rw [chars_of_fraction none]
    obtain whole | fraction := List.mem_append.mp h
    · exact List.mem_append_left _ whole
    · exact List.mem_append_right _ (List.mem_cons_of_mem _ fraction)

/-- Digits, perhaps with a point among them but not at either end. -/
inductive Plain : List Char → Prop
  | whole {text : List Char} (nonempty : text ≠ []) (digits : ∀ c ∈ text, c.isDigit = true) :
      Plain text
  | pointed {whole fraction : List Char} (before : whole ≠ []) (behind : fraction ≠ [])
      (digits : ∀ c ∈ whole ++ fraction, c.isDigit = true) : Plain (whole ++ '.' :: fraction)

theorem Plain.head_digit {text : List Char} (h : Plain text) :
    ∀ c ∈ text.head?, c.isDigit = true := by
  cases h with
  | whole nonempty digits => exact fun c head => digits c (List.mem_of_head? head)
  | @pointed whole fraction before behind digits =>
    intro c head
    obtain ⟨d, rest, rfl⟩ := List.exists_cons_of_ne_nil before
    obtain rfl : d = c := Option.some.inj head
    exact digits d List.mem_cons_self

theorem plain_chars (d : Decimal) : Plain d.chars := by
  by_cases none : d.fractionChars = []
  · rw [chars_of_no_fraction none]
    exact .whole d.wholeChars_ne_nil fun c h => isDigit_of_mem_wholeChars h
  · rw [chars_of_fraction none]
    exact .pointed d.wholeChars_ne_nil none fun c h => isDigit_of_mem_digits h

theorem dropFinalZeros_append (digits : List Char) :
    ∃ n, digits = dropFinalZeros digits ++ List.replicate n '0' := by
  refine ⟨(digits.reverse.takeWhile (· = '0')).length, ?_⟩
  have zeros : digits.reverse.takeWhile (· = '0')
      = List.replicate (digits.reverse.takeWhile (· = '0')).length '0' := by
    rw [List.eq_replicate_iff]
    exact ⟨rfl, fun c h => by simpa using List.mem_takeWhile_imp h⟩
  have whole := List.takeWhile_append_dropWhile (p := (· = '0')) (l := digits.reverse)
  rw [dropFinalZeros, ← List.reverse_replicate, ← zeros, ← List.reverse_append, whole,
    List.reverse_reverse]

theorem length_leftpad_toDigits {n places : Nat} (pos : 0 < places) (below : n < 10 ^ places) :
    (List.leftpad places '0' (Nat.toDigits 10 n)).length = places := by
  have short := (Nat.length_toDigits_le_iff (by decide) pos).mpr below
  rw [List.length_leftpad]
  omega

theorem ofDigitChars_leftpad_toDigits (n places : Nat) :
    Nat.ofDigitChars 10 (List.leftpad places '0' (Nat.toDigits 10 n)) 0 = n := by
  rw [List.leftpad, Nat.ofDigitChars_append, Nat.ofDigitChars_replicate_zero, Nat.mul_zero,
    Nat.ofDigitChars_ten_toDigits]

/-- The digits behind the point stand for the fraction, in units of the last one written. -/
theorem fractionChars_value (d : Decimal) :
    ∃ n, d.places = d.fractionChars.length + n ∧
      Nat.ofDigitChars 10 d.fractionChars 0 * 10 ^ n = d.units % 10 ^ d.places := by
  unfold fractionChars
  generalize fraction : d.units % 10 ^ d.places = f
  by_cases none : d.places = 0
  · have zero : f = 0 := by
      rw [none, Nat.pow_zero, Nat.mod_one] at fraction
      exact fraction.symm
    refine ⟨0, ?_⟩
    rw [none, zero]
    decide
  · have below : f < 10 ^ d.places := by
      rw [← fraction]
      exact Nat.mod_lt _ (Nat.pow_pos (by decide))
    have length := length_leftpad_toDigits (Nat.pos_of_ne_zero none) below
    have value := ofDigitChars_leftpad_toDigits f d.places
    obtain ⟨n, padded⟩ := dropFinalZeros_append (List.leftpad d.places '0' (Nat.toDigits 10 f))
    refine ⟨n, ?_, ?_⟩
    · rw [padded, List.length_append, List.length_replicate] at length
      exact length.symm
    · rw [padded, Nat.ofDigitChars_append, Nat.ofDigitChars_replicate_zero, Nat.mul_comm] at value
      exact value

end Digits

section Reading

theorem ofChars?_digits {whole : List Char} (nonempty : whole ≠ [])
    (digits : ∀ c ∈ whole, c.isDigit = true) :
    ofChars? whole = some ⟨Nat.ofDigitChars 10 whole 0, 0⟩ := by
  have noPoint : ∀ c ∈ whole, decide (c ≠ '.') = true := by
    intro c h
    have digit := digits c h
    exact decide_eq_true (by rintro rfl; cases digit)
  have before : whole.takeWhile (· ≠ '.') = whole := List.takeWhile_eq_self_iff.mpr noPoint
  have behind : whole.dropWhile (· ≠ '.') = [] := List.dropWhile_eq_nil_iff.mpr noPoint
  simp only [ofChars?, before, behind, List.drop_nil, List.append_nil, List.length_nil]
  rw [if_pos ⟨nonempty, List.all_eq_true.mpr digits⟩]

theorem ofChars?_point {whole fraction : List Char} (nonempty : whole ++ fraction ≠ [])
    (digits : ∀ c ∈ whole ++ fraction, c.isDigit = true) :
    ofChars? (whole ++ '.' :: fraction)
      = some ⟨Nat.ofDigitChars 10 (whole ++ fraction) 0, fraction.length⟩ := by
  have noPoint : ∀ c ∈ whole, decide (c ≠ '.') = true := by
    intro c h
    have digit := digits c (List.mem_append_left _ h)
    exact decide_eq_true (by rintro rfl; cases digit)
  have before : (whole ++ '.' :: fraction).takeWhile (· ≠ '.') = whole := by
    rw [List.takeWhile_append_of_pos noPoint, List.takeWhile_cons_of_neg (by decide),
      List.append_nil]
  have behind : (whole ++ '.' :: fraction).dropWhile (· ≠ '.') = '.' :: fraction := by
    rw [List.dropWhile_append_of_pos noPoint, List.dropWhile_cons_of_neg (by decide)]
  simp only [ofChars?, before, behind, List.drop_succ_cons, List.drop_zero]
  rw [if_pos ⟨nonempty, List.all_eq_true.mpr digits⟩]

theorem ofChars?_chars (d : Decimal) :
    ofChars? d.chars = some ⟨Nat.ofDigitChars 10 (d.wholeChars ++ d.fractionChars) 0,
      d.fractionChars.length⟩ := by
  have digits : ∀ c ∈ d.wholeChars ++ d.fractionChars, c.isDigit = true :=
    fun c h => isDigit_of_mem_digits h
  have nonempty : d.wholeChars ++ d.fractionChars ≠ [] :=
    List.append_ne_nil_of_left_ne_nil (wholeChars_ne_nil d) _
  by_cases none : d.fractionChars = []
  · rw [none, List.append_nil] at digits nonempty ⊢
    rw [chars_of_no_fraction none]
    exact ofChars?_digits nonempty digits
  · rw [chars_of_fraction none]
    exact ofChars?_point nonempty digits

theorem ofChars?_chars_value (d : Decimal) :
    ∃ d', ofChars? d.chars = some d' ∧ d'.units * 10 ^ d.places = d.units * 10 ^ d'.places := by
  refine ⟨_, ofChars?_chars d, ?_⟩
  obtain ⟨n, places, fraction⟩ := fractionChars_value d
  have whole : Nat.ofDigitChars 10 d.wholeChars 0 = d.units / 10 ^ d.places :=
    Nat.ofDigitChars_ten_toDigits
  have parts := Nat.div_add_mod d.units (10 ^ d.places)
  show Nat.ofDigitChars 10 (d.wholeChars ++ d.fractionChars) 0 * 10 ^ d.places
    = d.units * 10 ^ d.fractionChars.length
  rw [Nat.ofDigitChars_append, Nat.ofDigitChars_eq_ofDigitChars_zero, whole]
  calc (10 ^ d.fractionChars.length * (d.units / 10 ^ d.places)
          + Nat.ofDigitChars 10 d.fractionChars 0) * 10 ^ d.places
      = (10 ^ d.places * (d.units / 10 ^ d.places)
          + Nat.ofDigitChars 10 d.fractionChars 0 * 10 ^ n) * 10 ^ d.fractionChars.length := by
        rw [show 10 ^ d.places = 10 ^ d.fractionChars.length * 10 ^ n by rw [places, Nat.pow_add]]
        grind
    _ = d.units * 10 ^ d.fractionChars.length := by rw [fraction, parts]

theorem exists_nonzero_digit {d : Decimal} (nonzero : d.units ≠ 0) :
    ∃ c ∈ d.chars, c.isDigit = true ∧ c ≠ '0' := by
  by_contra none
  have zero : ∀ c ∈ d.wholeChars ++ d.fractionChars, c = '0' := by
    intro c h
    by_contra other
    exact none ⟨c, mem_chars_of_digit h, isDigit_of_mem_digits h, other⟩
  have digits := List.eq_replicate_iff.mpr ⟨rfl, zero⟩
  obtain ⟨d', read, value⟩ := ofChars?_chars_value d
  rw [ofChars?_chars, digits, Nat.ofDigitChars_replicate_zero, Nat.mul_zero] at read
  cases read
  rw [Nat.zero_mul] at value
  exact absurd value.symm (Nat.mul_ne_zero nonzero (Nat.ne_of_gt (Nat.pow_pos (by decide))))

theorem toFloat_congr {d d' : Decimal}
    (value : d.units * 10 ^ d'.places = d'.units * 10 ^ d.places) : d.toFloat = d'.toFloat := by
  have bits : Binary64.nearestBits d.units (10 ^ d.places)
      = Binary64.nearestBits d'.units (10 ^ d'.places) :=
    Binary64.nearestBits_congr (Nat.pow_pos (by decide)) (Nat.pow_pos (by decide)) value
  rw [toFloat, toFloat, Binary64.nearest, Binary64.nearest, bits]

end Reading

end Calculator.Decimal

namespace Calculator.ShortestDecimal
open Binary64

variable {x : Float}

theorem chars_eq_signed (finite : x.isFinite = true) :
    chars x = if isNegative x then '-' :: (ofBits (magnitudeBits x)).chars
      else (ofBits (magnitudeBits x)).chars := by
  simp only [chars, isNaN_of_isFinite finite, isInf_of_isFinite finite, Bool.false_eq_true,
    if_false]

theorem chars_of_isFinite (finite : x.isFinite = true) (sign : isNegative x = false) :
    chars x = (ofBits (magnitudeBits x)).chars := by
  rw [chars_eq_signed finite, sign, if_neg Bool.false_ne_true]

theorem magnitudeBits_toFloat_ofBits (finite : x.isFinite = true) :
    magnitudeBits (ofBits (magnitudeBits x)).toFloat = magnitudeBits x := by
  have back := readsBack_ofBits ((isFinite_iff x).mp finite)
  rw [readsBack, beq_iff_eq] at back
  rw [Decimal.toFloat, magnitudeBits_nearest, back]

/-- The written decimal of a finite number without a sign is nearest to that number. -/
theorem toFloat_ofBits (finite : x.isFinite = true) (sign : isNegative x = false) :
    (ofBits (magnitudeBits x)).toFloat = x := by
  apply eq_of_sign_of_magnitude _ (magnitudeBits_toFloat_ofBits finite)
  rw [sign]
  exact isNegative_nearest _ _ _

end Calculator.ShortestDecimal

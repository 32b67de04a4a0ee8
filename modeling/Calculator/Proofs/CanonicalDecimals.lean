import Calculator.Proofs.RoundedTexts

/-!
# Rounded numbers have one written form

A number is rounded to the nearest multiple of the last place and written with all places; then the
zeros at the end are taken away, and a point or a sign that means nothing with them. What is left
has the same value, and of all digits that could be left out none is there any more. So two numbers
are written alike exactly if they round to the same multiple.
-/
namespace Calculator.Binary64

/-- The number is nearest to that multiple of `10 ^ -places`. If another one is as near, the last
digit is even. -/
def IsNearestMultiple (q : Rat) (places : Nat) (m : Int) : Prop :=
  ∀ k : Int, k ≠ m → |q - m / 10 ^ places| < |q - k / 10 ^ places| ∨
    |q - m / 10 ^ places| = |q - k / 10 ^ places| ∧ m % 2 = 0

section IsNearestMultiple

variable {q : Rat} {places : Nat} {m m' : Int}

theorem isNearestMultiple_of_isNearestEven {n : Nat} (h : IsNearestEven (q * 10 ^ places) n) :
    IsNearestMultiple q places n := by
  have positive : (0 : Rat) < 10 ^ places := by positivity
  have scaled (k : Int) : |q - k / 10 ^ places| = |q * 10 ^ places - k| / 10 ^ places := by
    rw [eq_div_iff positive.ne', ← abs_of_pos positive, ← abs_mul, abs_of_pos positive, sub_mul,
      div_mul_cancel₀ _ positive.ne']
  intro k other
  have apart := one_le_abs_sub_add (q * 10 ^ places) other
  rw [scaled, scaled, div_lt_div_iff_of_pos_right positive, div_left_inj' positive.ne',
    Int.cast_natCast]
  rw [Int.cast_natCast] at apart
  obtain near | ⟨half, even⟩ := h
  · exact .inl (by linarith)
  · obtain farther | tie := (show |q * 10 ^ places - n| ≤ |q * 10 ^ places - k| by
      linarith).lt_or_eq
    · exact .inl farther
    · exact .inr ⟨tie, by omega⟩

theorem IsNearestMultiple.neg (h : IsNearestMultiple q places m) :
    IsNearestMultiple (-q) places (-m) := by
  have opposite (k : Int) : |-q - (k : Rat) / 10 ^ places| = |q - (-k : Int) / 10 ^ places| := by
    rw [← abs_neg]
    push_cast
    congr 1
    ring
  intro k other
  rw [opposite, opposite, neg_neg]
  obtain nearer | ⟨tie, even⟩ := h (-k) (by omega)
  · exact .inl nearer
  · exact .inr ⟨tie, by omega⟩

theorem IsNearestMultiple.le (h : IsNearestMultiple q places m) (k : Int) :
    |q - m / 10 ^ places| ≤ |q - k / 10 ^ places| := by
  by_cases same : k = m
  · rw [same]
  · obtain nearer | ⟨tie, -⟩ := h k same
    · exact nearer.le
    · exact tie.le

theorem IsNearestMultiple.even_of_tie (h : IsNearestMultiple q places m) {k : Int} (other : k ≠ m)
    (tie : |q - m / 10 ^ places| = |q - k / 10 ^ places|) : m % 2 = 0 := by
  obtain nearer | ⟨-, even⟩ := h k other
  · exact absurd tie nearer.ne
  · exact even

/-- Two multiples that are both nearest would both be even, and one between them nearer. -/
theorem IsNearestMultiple.unique (h : IsNearestMultiple q places m)
    (h' : IsNearestMultiple q places m') : m = m' := by
  by_contra different
  have tie := le_antisymm (h.le m') (h'.le m)
  have even := h.even_of_tie (Ne.symm different) tie
  have even' := h'.even_of_tie different tie.symm
  have positive : (0 : Rat) < 10 ^ places := by positivity
  obtain ⟨mid, halfway⟩ : ∃ mid, m + m' = 2 * mid := ⟨(m + m') / 2, by omega⟩
  have halfway' : (m : Rat) + m' = 2 * mid := by exact_mod_cast halfway
  obtain same | mirrored := abs_eq_abs.mp tie
  · have equal : (m : Rat) / 10 ^ places = m' / 10 ^ places := by linarith
    rw [div_left_inj' positive.ne'] at equal
    exact different (by exact_mod_cast equal)
  · have exact : q = mid / 10 ^ places := by
      rw [eq_div_iff positive.ne']
      field_simp at mirrored
      linarith
    have zero := h.le mid
    rw [← exact, sub_self, abs_zero, abs_nonpos_iff, sub_eq_zero, exact,
      div_left_inj' positive.ne'] at zero
    have same : mid = m := by exact_mod_cast zero
    omega

end IsNearestMultiple

end Calculator.Binary64

namespace Calculator.Decimal

def IsWhole (l : List Char) : Prop :=
  l = ['0'] ∨ (∀ c ∈ l, c.isDigit = true) ∧ ∃ c ∈ l.head?, c ≠ '0'

def IsFraction (l : List Char) : Prop :=
  (∀ c ∈ l, c.isDigit = true) ∧ ∃ c ∈ l.getLast?, c ≠ '0'

/-- A decimal without a needless zero, with that many digits behind its point. -/
inductive Trimmed : List Char → Nat → Prop
  | whole {l : List Char} (h : IsWhole l) : Trimmed l 0
  | pointed {l fraction : List Char} (h : IsWhole l) (h' : IsFraction fraction) :
      Trimmed (l ++ '.' :: fraction) fraction.length

section Digits

theorem head_toDigits {n : Nat} (nonzero : n ≠ 0) : ∃ c ∈ (Nat.toDigits 10 n).head?, c ≠ '0' := by
  induction n using Nat.strong_induction_on with
  | _ n ih =>
    by_cases small : n < 10
    · rw [Nat.toDigits_of_lt_base small]
      exact ⟨n.digitChar, rfl, by simpa using nonzero⟩
    · obtain ⟨c, head, other⟩ := ih (n / 10) (by omega) (by omega)
      rw [Nat.toDigits_of_base_le (by decide) (by omega), List.head?_append,
        Option.mem_def.mp head]
      exact ⟨c, rfl, other⟩

theorem isWhole_wholeChars (d : Decimal) : IsWhole d.wholeChars := by
  by_cases zero : d.units / 10 ^ d.places = 0
  · refine .inl ?_
    rw [wholeChars, zero, Nat.toDigits_zero]
  · exact .inr ⟨fun c mem => isDigit_of_mem_wholeChars mem, head_toDigits zero⟩

theorem last_dropFinalZeros {digits : List Char} :
    ∀ c ∈ (dropFinalZeros digits).getLast?, c ≠ '0' := by
  intro c last
  rw [dropFinalZeros, List.getLast?_reverse] at last
  simpa using Lexeme.head_dropWhile (· = '0') digits.reverse c last

theorem isFraction_fractionChars {d : Decimal} (h : d.fractionChars ≠ []) :
    IsFraction d.fractionChars := by
  have last := List.getLast?_eq_some_getLast h
  exact ⟨fun c mem => isDigit_of_mem_fractionChars mem, _, last, last_dropFinalZeros _ last⟩

theorem length_fractionChars_le (d : Decimal) : d.fractionChars.length ≤ d.places := by
  obtain ⟨n, places, -⟩ := d.fractionChars_value
  omega

theorem trimmed_chars (d : Decimal) : Trimmed d.chars d.fractionChars.length := by
  by_cases none : d.fractionChars = []
  · rw [chars_of_no_fraction none, none]
    exact .whole d.isWhole_wholeChars
  · rw [chars_of_fraction none]
    exact .pointed d.isWhole_wholeChars (isFraction_fractionChars none)

end Digits

section Zeros

def allChars (d : Decimal) : List Char :=
  d.wholeChars ++ if d.places = 0 then [] else '.' :: d.placeChars

theorem head_allChars (d : Decimal) : ∀ c ∈ d.allChars.head?, c.isDigit = true := by
  intro c head
  rw [allChars, List.head?_append_of_ne_nil _ d.wholeChars_ne_nil] at head
  exact isDigit_of_mem_wholeChars (List.mem_of_head? head)

theorem ofChars?_allChars (d : Decimal) : ofChars? d.allChars = some d := by
  have whole : Nat.ofDigitChars 10 d.wholeChars 0 = d.units / 10 ^ d.places :=
    Nat.ofDigitChars_ten_toDigits
  have digits : ∀ c ∈ d.wholeChars, c.isDigit = true := fun c mem => isDigit_of_mem_wholeChars mem
  by_cases none : d.places = 0
  · rw [none, Nat.pow_zero, Nat.div_one] at whole
    rw [allChars, if_pos none, List.append_nil, ofChars?_digits d.wholeChars_ne_nil digits, whole,
      ← none]
  · have length : d.placeChars.length = d.places := length_leftpad_toDigits
      (Nat.pos_of_ne_zero none) (Nat.mod_lt _ (Nat.pow_pos (by decide)))
    have fraction : Nat.ofDigitChars 10 d.placeChars 0 = d.units % 10 ^ d.places :=
      ofDigitChars_leftpad_toDigits _ _
    rw [allChars, if_neg none, ofChars?_point
      (List.append_ne_nil_of_left_ne_nil d.wholeChars_ne_nil _), Nat.ofDigitChars_append,
      Nat.ofDigitChars_eq_ofDigitChars_zero, whole, fraction, length, Nat.div_add_mod]
    intro c mem
    obtain first | last := List.mem_append.mp mem
    · exact digits c first
    · exact isDigit_of_mem_placeChars last

/-- A text without the zeros that end it behind a point, and without a point that ends it then. -/
def dropZeros (text : List Char) : List Char :=
  if '.' ∈ text then
    let kept := dropFinalZeros text
    if kept.getLast? = some '.' then kept.dropLast else kept
  else text

theorem dropFinalZeros_pointed (front digits : List Char) :
    dropFinalZeros (front ++ '.' :: digits) = front ++ '.' :: dropFinalZeros digits := by
  have stop : ('.' :: front.reverse).dropWhile (· = '0') = '.' :: front.reverse :=
    List.dropWhile_cons_of_neg (by decide)
  have reversed : (front ++ '.' :: digits).reverse = digits.reverse ++ '.' :: front.reverse := by
    simp
  rw [dropFinalZeros, dropFinalZeros, reversed, List.dropWhile_append, stop]
  split
  · next nothing =>
    rw [List.isEmpty_iff.mp nothing]
    simp
  · simp

theorem dropZeros_allChars {sign : List Char} (unpointed : '.' ∉ sign) (d : Decimal) :
    dropZeros (sign ++ d.allChars) = sign ++ d.chars := by
  have point : '.' ∉ sign ++ d.wholeChars := by
    intro mem
    obtain first | last := List.mem_append.mp mem
    · exact unpointed first
    · cases isDigit_of_mem_wholeChars last
  by_cases none : d.places = 0
  · have short := d.length_fractionChars_le
    have nothing : d.fractionChars = [] := List.eq_nil_of_length_eq_zero (by omega)
    rw [allChars, if_pos none, List.append_nil, chars_of_no_fraction nothing, dropZeros,
      if_neg point]
  · have pointed : sign ++ d.allChars = (sign ++ d.wholeChars) ++ '.' :: d.placeChars := by
      rw [allChars, if_neg none, List.append_assoc]
    have kept : dropFinalZeros (sign ++ d.allChars)
        = (sign ++ d.wholeChars) ++ '.' :: d.fractionChars := by
      rw [pointed, dropFinalZeros_pointed]
      rfl
    rw [dropZeros, if_pos (by simp [pointed]), kept]
    dsimp only
    by_cases nothing : d.fractionChars = []
    · rw [nothing, if_pos (by simp), List.dropLast_concat, chars_of_no_fraction nothing]
    · obtain ⟨digits, c, last, -⟩ := isFraction_fractionChars nothing
      rw [if_neg, chars_of_fraction nothing, List.append_assoc]
      rw [List.getLast?_append, List.getLast?_cons, last]
      rintro ⟨rfl⟩
      cases digits '.' (List.mem_of_getLast? last)

end Zeros

section Zero

variable {d : Decimal}

theorem fractionChars_of_zero (zero : d.units = 0) : d.fractionChars = [] := by
  by_contra some
  obtain ⟨-, c, last, other⟩ := isFraction_fractionChars some
  have place : c ∈ d.placeChars := mem_of_mem_dropFinalZeros (List.mem_of_getLast? last)
  rw [placeChars, zero, Nat.zero_mod, Nat.toDigits_zero, List.leftpad, List.mem_append,
    List.mem_singleton] at place
  obtain padding | digit := place
  · exact other (List.eq_of_mem_replicate padding)
  · exact other digit

theorem chars_eq_zero_iff : d.chars = ['0'] ↔ d.units = 0 := by
  constructor
  · intro written
    by_contra nonzero
    obtain ⟨c, mem, -, other⟩ := exists_nonzero_digit nonzero
    rw [written] at mem
    exact other (List.mem_singleton.mp mem)
  · intro zero
    rw [chars_of_no_fraction (fractionChars_of_zero zero), wholeChars, zero, Nat.zero_div,
      Nat.toDigits_zero]

end Zero

theorem value_eq_of_units {d d' : Decimal}
    (same : d.units * 10 ^ d'.places = d'.units * 10 ^ d.places) : d.value = d'.value := by
  rw [value, value, div_eq_div_iff]
  · exact_mod_cast same
  · positivity
  · positivity

end Calculator.Decimal

namespace Calculator.RoundedDecimal
open Binary64

/-- A decimal without a needless zero, perhaps with a minus sign in front. -/
inductive Canonical : List Char → Nat → Prop
  | unsigned {text : List Char} {digits : Nat} (h : Decimal.Trimmed text digits) :
      Canonical text digits
  | negative {text : List Char} {digits : Nat} (h : Decimal.Trimmed text digits) :
      Canonical ('-' :: text) digits

def value? : List Char → Option Rat
  | '-' :: text => (Decimal.ofChars? text).map fun d => -d.value
  | text => (Decimal.ofChars? text).map Decimal.value

/-- The number written with all places, and with its sign even if that is the one of zero. -/
def fixedChars (x : Float) (places : Nat) : List Char :=
  if isNegative x then '-' :: (magnitude x places).allChars else (magnitude x places).allChars

/-- A text without needless zeros, and zero without a sign. -/
def trim (text : List Char) : List Char :=
  if Decimal.dropZeros text = ['-', '0'] then ['0'] else Decimal.dropZeros text

/-- The rounded number in units of the last place. -/
def roundedUnits (x : Float) (places : Nat) : Int :=
  if isNegative x then -(magnitude x places).units else (magnitude x places).units

section Rounding

variable {x y : Float} {places : Nat}

theorem isNearestMultiple_roundedUnits (x : Float) (places : Nat) :
    IsNearestMultiple (value x) places (roundedUnits x places) := by
  obtain ⟨n, rounded⟩ : ∃ n, roundHalfEven (quanta x * 10 ^ places) resolution = n := ⟨_, rfl⟩
  have written : (magnitude x places).units = n := by rw [magnitude, rounded]
  have nearest := (roundHalfEven_eq_iff resolution_pos).mp rounded
  have scaled : ((quanta x * 10 ^ places : Nat) : Rat) / resolution
      = (quanta x : Rat) / resolution * 10 ^ places := by
    push_cast
    ring
  rw [scaled] at nearest
  have unsigned := isNearestMultiple_of_isNearestEven nearest
  rw [value, roundedUnits, written]
  by_cases sign : isNegative x = true
  · rw [if_pos sign, if_pos sign]
    exact unsigned.neg
  · rw [if_neg sign, if_neg sign]
    exact unsigned

theorem roundedUnits_neg_iff (x : Float) (places : Nat) :
    roundedUnits x places < 0 ↔ isNegative x = true ∧ (magnitude x places).units ≠ 0 := by
  rw [roundedUnits]
  generalize (magnitude x places).units = n
  by_cases sign : isNegative x = true
  · rw [if_pos sign, and_iff_right sign]
    omega
  · rw [if_neg sign]
    exact iff_of_false (by omega) fun both => sign both.1

theorem natAbs_roundedUnits (x : Float) (places : Nat) :
    (roundedUnits x places).natAbs = (magnitude x places).units := by
  rw [roundedUnits]
  generalize (magnitude x places).units = n
  split <;> omega

theorem text_eq_of_roundedUnits (hx : x.isFinite = true) (hy : y.isFinite = true)
    (same : roundedUnits x places = roundedUnits y places) : text x places = text y places := by
  have units : (magnitude x places).units = (magnitude y places).units := by
    rw [← natAbs_roundedUnits, same, natAbs_roundedUnits]
  have sign : isNegative x = true ∧ (magnitude x places).units ≠ 0 ↔
      isNegative y = true ∧ (magnitude y places).units ≠ 0 := by
    rw [← roundedUnits_neg_iff, same, roundedUnits_neg_iff]
  have magnitudes : magnitude x places = magnitude y places := by
    simp only [magnitude] at units ⊢
    rw [units]
  refine text_congr hx hy magnitudes fun nonzero => ?_
  rw [units, and_iff_left nonzero, and_iff_left nonzero] at sign
  exact Bool.eq_iff_iff.mpr sign

end Rounding

section Values

variable {text : List Char} {q : Rat}

theorem value?_sign (head : ∀ c ∈ text.head?, c.isDigit = true)
    (read : (Decimal.ofChars? text).map Decimal.value = some q) (minus : Prop) [Decidable minus] :
    value? (if minus then '-' :: text else text) = some (if minus then -q else q) := by
  by_cases negative : minus
  · rw [if_pos negative, if_pos negative, value?, ← Function.comp_def, ← Option.map_map, read]
    rfl
  · rw [if_neg negative, if_neg negative]
    unfold value?
    split
    · cases head '-' rfl
    · exact read

theorem value_magnitude (x : Float) (places : Nat) :
    (magnitude x places).value = ((magnitude x places).units : Rat) / 10 ^ places := by
  simp only [magnitude, Decimal.value]
  push_cast
  rfl

theorem value?_fixedChars (x : Float) (places : Nat) :
    value? (fixedChars x places) = some ((roundedUnits x places : Rat) / 10 ^ places) := by
  have read : (Decimal.ofChars? (magnitude x places).allChars).map Decimal.value
      = some (((magnitude x places).units : Rat) / 10 ^ places) := by
    rw [Decimal.ofChars?_allChars, Option.map_some, value_magnitude]
  rw [fixedChars, value?_sign (Decimal.head_allChars _) read, roundedUnits]
  split
  · push_cast
    rw [neg_div]
  · push_cast
    rfl

theorem value?_finiteChars (x : Float) (places : Nat) :
    value? (finiteChars x places) = some ((roundedUnits x places : Rat) / 10 ^ places) := by
  obtain ⟨d, read, same⟩ := (magnitude x places).ofChars?_chars_value
  have read : (Decimal.ofChars? (magnitude x places).chars).map Decimal.value
      = some (((magnitude x places).units : Rat) / 10 ^ places) := by
    rw [read, Option.map_some, Decimal.value_eq_of_units same, value_magnitude]
  rw [finiteChars, value?_sign (Decimal.plain_chars _).head_digit read, roundedUnits]
  generalize (magnitude x places).units = n
  by_cases sign : isNegative x = true
  · by_cases zero : n = 0
    · simp [zero]
    · rw [if_pos ⟨sign, zero⟩, if_pos sign]
      push_cast
      rw [neg_div]
  · rw [if_neg fun h => sign h.1, if_neg sign]
    push_cast
    rfl

end Values

section Stripping

theorem trim_fixedChars (x : Float) (places : Nat) :
    trim (fixedChars x places) = finiteChars x places := by
  rw [fixedChars, finiteChars]
  generalize magnitude x places = d
  by_cases sign : isNegative x = true
  · have stripped : Decimal.dropZeros ('-' :: d.allChars) = '-' :: d.chars :=
      Decimal.dropZeros_allChars (show '.' ∉ ['-'] by decide) d
    rw [if_pos sign, trim, stripped]
    by_cases zero : d.units = 0
    · rw [Decimal.chars_eq_zero_iff.mpr zero, if_pos rfl, if_neg fun h => h.2 zero]
    · rw [if_neg fun h => zero (Decimal.chars_eq_zero_iff.mp (List.cons.inj h).2), if_pos ⟨sign, zero⟩]
  · have stripped : Decimal.dropZeros d.allChars = d.chars :=
      Decimal.dropZeros_allChars List.not_mem_nil d
    have unsigned : d.chars ≠ ['-', '0'] := by
      intro minus
      have digit := (Decimal.plain_chars d).head_digit
      rw [minus] at digit
      cases digit '-' rfl
    rw [if_neg sign, trim, stripped, if_neg unsigned, if_neg fun h => sign h.1]

end Stripping

section Texts

variable {x y : Float} {places : Nat}

theorem canonical_finiteChars (x : Float) (places : Nat) :
    ∃ digits ≤ places, Canonical (finiteChars x places) digits := by
  have trimmed := (magnitude x places).trimmed_chars
  refine ⟨_, (magnitude x places).length_fractionChars_le, ?_⟩
  rw [finiteChars]
  split
  · exact .negative trimmed
  · exact .unsigned trimmed

theorem head_finiteChars (x : Float) (places : Nat) :
    (finiteChars x places).head? = some '-' ↔ roundedUnits x places < 0 := by
  rw [roundedUnits_neg_iff, finiteChars]
  by_cases negative : isNegative x = true ∧ (magnitude x places).units ≠ 0
  · rw [if_pos negative]
    exact iff_of_true rfl negative
  · rw [if_neg negative]
    refine iff_of_false (fun head => ?_) negative
    cases (Decimal.plain_chars (magnitude x places)).head_digit '-' head

theorem roundedUnits_eq_of_text (hx : x.isFinite = true) (hy : y.isFinite = true)
    (same : text x places = text y places) : roundedUnits x places = roundedUnits y places := by
  rw [text_of_isFinite hx, text_of_isFinite hy, String.ofList_inj] at same
  have positive : (0 : Rat) < 10 ^ places := by positivity
  have values := value?_finiteChars x places
  rw [same, value?_finiteChars, Option.some.injEq, div_left_inj' positive.ne'] at values
  exact_mod_cast values.symm

end Texts

/-- A finite number is written as the multiple of the last place nearest to it. Written with all
places it has that value, and so it has when what is needless is taken away. Then it is a decimal
without a needless zero or point, has as many digits behind the point as places at most, and a minus
sign just if the rounded value is less than zero. Two numbers are written alike exactly if they
round to the same multiple. -/
theorem text_isCanonical (places : Nat) :
    (∀ x : Float, x.isFinite = true → ∃ m : Int, IsNearestMultiple (value x) places m ∧
      value? (fixedChars x places) = some ((m : Rat) / 10 ^ places) ∧
      (text x places).toList = trim (fixedChars x places) ∧
      value? (text x places).toList = some ((m : Rat) / 10 ^ places) ∧
      (∃ digits ≤ places, Canonical (text x places).toList digits) ∧
      ((text x places).toList.head? = some '-' ↔ m < 0)) ∧
      ∀ x y : Float, x.isFinite = true → y.isFinite = true →
        (text x places = text y places ↔ ∃ m : Int,
          IsNearestMultiple (value x) places m ∧ IsNearestMultiple (value y) places m) := by
  constructor
  · intro x finite
    rw [text_of_isFinite finite, String.toList_ofList]
    exact ⟨roundedUnits x places, isNearestMultiple_roundedUnits x places,
      value?_fixedChars x places, (trim_fixedChars x places).symm, value?_finiteChars x places,
      canonical_finiteChars x places, head_finiteChars x places⟩
  · intro x y hx hy
    have nearestX := isNearestMultiple_roundedUnits x places
    have nearestY := isNearestMultiple_roundedUnits y places
    constructor
    · intro same
      rw [← roundedUnits_eq_of_text hx hy same] at nearestY
      exact ⟨_, nearestX, nearestY⟩
    · rintro ⟨m, first, second⟩
      apply text_eq_of_roundedUnits hx hy
      rw [nearestX.unique first, nearestY.unique second]

/-- Halfway between two multiples, and a number beside it. -/
theorem text_isCanonical_half :
    let x : Float := -0.125
    let y : Float := -0.1201171875
    x.isFinite = true ∧ y.isFinite = true ∧ text x 2 = "-0.12" ∧
      (∃ m : Int, IsNearestMultiple (value x) 2 m ∧ IsNearestMultiple (value y) 2 m) ∧
      ∃ m : Int, IsNearestMultiple (value x) 2 m ∧
        value? (fixedChars x 2) = some ((m : Rat) / 10 ^ 2) ∧
        (text x 2).toList = trim (fixedChars x 2) ∧
        value? (text x 2).toList = some ((m : Rat) / 10 ^ 2) ∧
        (∃ digits ≤ 2, Canonical (text x 2).toList digits) ∧
        ((text x 2).toList.head? = some '-' ↔ m < 0) := by
  intro x y
  have hx : x.isFinite = true := by decide +kernel
  have hy : y.isFinite = true := by decide +kernel
  have same : text x 2 = text y 2 := by decide +kernel
  obtain ⟨written, alike⟩ := text_isCanonical 2
  exact ⟨hx, hy, by decide +kernel, (alike x y hx hy).mp same, written x hx⟩

end Calculator.RoundedDecimal

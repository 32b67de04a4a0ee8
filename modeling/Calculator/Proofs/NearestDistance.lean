import Calculator.Proofs.NearestRounding

/-!
# How far rounding goes

The whole number nearest to a quotient, and of two the even one, is known by its distance alone;
whatever lies no farther from it than the quotient did is rounded to it as well. In the same way no
binary64 number is nearer to a quotient than the one it is rounded to.
-/
namespace Calculator.Binary64

/-- The whole number is nearest to `q`, and even if another one is as near. -/
def IsNearestEven (q : Rat) (n : Nat) : Prop := |q - n| < 1 / 2 ∨ |q - n| = 1 / 2 ∧ n % 2 = 0

section IsNearestEven

variable {q q' : Rat} {n m : Nat}

theorem abs_sub_le_add (q a b : Rat) : |a - b| ≤ |q - a| + |q - b| := by
  rw [abs_sub_comm q a]
  exact abs_sub_le a q b

theorem one_le_abs_sub_add (q : Rat) {j k : Int} (different : j ≠ k) : 1 ≤ |q - k| + |q - j| := by
  have whole : (1 : Int) ≤ |k - j| := Int.one_le_abs (by omega)
  have apart : (1 : Rat) ≤ |(k : Rat) - j| := by exact_mod_cast whole
  exact apart.trans (abs_sub_le_add q k j)

theorem one_le_of_ne (q : Rat) (different : n ≠ m) : 1 ≤ |q - n| + |q - m| := by
  have apart := one_le_abs_sub_add q (Nat.cast_injective.ne different.symm : (m : Int) ≠ n)
  exact_mod_cast apart

theorem IsNearestEven.le_half (h : IsNearestEven q n) : |q - n| ≤ 1 / 2 := by
  obtain near | ⟨half, -⟩ := h
  · exact near.le
  · exact half.le

theorem IsNearestEven.le (h : IsNearestEven q n) (m : Nat) : |q - n| ≤ |q - m| := by
  by_cases same : n = m
  · rw [same]
  · have apart := one_le_of_ne q same
    have near := h.le_half
    linarith

theorem IsNearestEven.unique (hn : IsNearestEven q n) (hm : IsNearestEven q m) : n = m := by
  by_contra different
  have apart := one_le_of_ne q different
  have near := hn.le_half
  have near' := hm.le_half
  obtain nearer | ⟨half, even⟩ := hn
  · linarith
  obtain nearer | ⟨half', even'⟩ := hm
  · linarith
  -- Halfway between two neighbours, only one of them is even.
  have close : |(n : Rat) - m| ≤ 1 := by linarith [abs_sub_le_add q n m]
  have neighbours : |(n : Int) - m| ≤ 1 := by exact_mod_cast close
  rw [abs_le] at neighbours
  omega

theorem IsNearestEven.le_of_le (h : IsNearestEven q n) (bound : q ≤ m) : n ≤ m := by
  by_contra above
  have next : (m : Rat) + 1 ≤ n := by exact_mod_cast Nat.lt_of_not_le above
  have near := h.le m
  rw [abs_of_nonpos (by linarith), abs_of_nonpos (by linarith)] at near
  linarith

theorem IsNearestEven.ge_of_ge (h : IsNearestEven q n) (bound : (m : Rat) ≤ q) : m ≤ n := by
  by_contra below
  have next : (n : Rat) + 1 ≤ m := by exact_mod_cast Nat.lt_of_not_le below
  have near := h.le m
  rw [abs_of_nonneg (by linarith), abs_of_nonneg (by linarith)] at near
  linarith

/-- What is no farther from the rounded number is rounded to it too. -/
theorem IsNearestEven.of_le (h : IsNearestEven q n) (closer : |q' - n| ≤ |q - n|) :
    IsNearestEven q' n := by
  obtain near | ⟨half, even⟩ := h
  · exact .inl (closer.trans_lt near)
  · rw [half] at closer
    obtain near | tie := closer.lt_or_eq
    · exact .inl near
    · exact .inr ⟨tie, even⟩

/-- The distance to a quotient is that to its numerator, on the scale of the denominator. -/
theorem isNearestEven_div_iff {num den : Nat} (pos : 0 < den) :
    IsNearestEven ((num : Rat) / den) n ↔
      2 * |(num : Int) - n * den| < den ∨ 2 * |(num : Int) - n * den| = den ∧ n % 2 = 0 := by
  have positive : (0 : Rat) < den := by exact_mod_cast pos
  have distance : |(num : Rat) / den - n| = (|(num : Int) - n * den| : Int) / (den : Rat) := by
    rw [← mul_div_cancel_right₀ (n : Rat) positive.ne', ← sub_div, abs_div, abs_of_pos positive]
    push_cast
    rfl
  have scale : (1 / 2 : Rat) = (den : Rat) / 2 / den := by field_simp
  have less : |(num : Rat) / den - n| < 1 / 2 ↔ 2 * |(num : Int) - n * den| < den := by
    rw [distance, scale, div_lt_div_iff_of_pos_right positive, lt_div_iff₀ two_pos, mul_comm]
    exact_mod_cast Iff.rfl
  have equal : |(num : Rat) / den - n| = 1 / 2 ↔ 2 * |(num : Int) - n * den| = den := by
    rw [distance, scale, div_left_inj' positive.ne', eq_div_iff two_ne_zero, mul_comm]
    exact_mod_cast Iff.rfl
  rw [IsNearestEven, less, equal]

theorem roundHalfEven_isNearestEven (num : Nat) {den : Nat} (pos : 0 < den) :
    IsNearestEven ((num : Rat) / den) (roundHalfEven num den) := by
  have parts : (den : Int) * (num / den : Nat) + (num % den : Nat) = num := by
    exact_mod_cast Nat.div_add_mod num den
  have below := Nat.mod_lt num pos
  have toFloor : (num : Int) - (num / den : Nat) * den = (num % den : Nat) := by linarith
  have toNext : (num : Int) - (num / den + 1 : Nat) * den = (num % den : Nat) - (den : Int) := by
    push_cast at parts ⊢
    linarith
  rw [isNearestEven_div_iff pos, roundHalfEven]
  split
  · next down =>
    rw [toFloor, abs_of_nonneg (Int.natCast_nonneg _)]
    omega
  · next up =>
    rw [toNext, abs_of_nonpos (by omega)]
    omega

theorem roundHalfEven_eq_iff {num den : Nat} (pos : 0 < den) :
    roundHalfEven num den = n ↔ IsNearestEven ((num : Rat) / den) n := by
  have nearest := roundHalfEven_isNearestEven num pos
  constructor
  · rintro rfl
    exact nearest
  · exact nearest.unique

end IsNearestEven

section NearestBits

variable {num den : Nat}

/-- How many powers of two the last bit kept is worth, in quanta. -/
def keptShift (num den : Nat) : Nat := (num * resolution / den).log2 - 52

def keptBits (num den : Nat) : Nat :=
  roundHalfEven (num * resolution) (den * 2 ^ keptShift num den)

/-- The word of a quotient, were there no greatest finite number. -/
def unboundedBits (num den : Nat) : Nat := keptShift num den * 2 ^ 52 + keptBits num den

theorem nearestBits_eq_min (num den : Nat) :
    nearestBits num den = min (unboundedBits num den) infinityBits := rfl

def exactQuanta (num den : Nat) : Rat := (num * resolution : Nat) / (den : Rat)

theorem exactQuanta_le (pos : 0 < den) :
    exactQuanta num den ≤ (2 ^ 53 : Nat) * 2 ^ keptShift num den := by
  have floor : num * resolution / den < 2 ^ 53 * 2 ^ keptShift num den := by
    rw [← Nat.pow_add]
    exact Nat.lt_log2_self.trans_le (Nat.pow_le_pow_right two_pos (by rw [keptShift]; omega))
  have whole : num * resolution < 2 ^ 53 * 2 ^ keptShift num den * den :=
    (Nat.div_lt_iff_lt_mul pos).mp floor
  rw [exactQuanta, div_le_iff₀ (by exact_mod_cast pos)]
  exact_mod_cast whole.le

theorem le_exactQuanta (pos : 0 < den) (shifted : keptShift num den ≠ 0) :
    (2 ^ 52 : Nat) * 2 ^ keptShift num den ≤ exactQuanta num den := by
  have floor : 2 ^ 52 * 2 ^ keptShift num den ≤ num * resolution / den := by
    rw [← Nat.pow_add, show 52 + keptShift num den = (num * resolution / den).log2 by
      rw [keptShift] at shifted ⊢; omega]
    exact Nat.log2_self_le (by rintro zero; rw [keptShift, zero] at shifted; exact shifted rfl)
  have whole : 2 ^ 52 * 2 ^ keptShift num den * den ≤ num * resolution :=
    (Nat.le_div_iff_mul_le pos).mp floor
  rw [exactQuanta, le_div_iff₀ (by exact_mod_cast pos)]
  exact_mod_cast whole

theorem keptBits_isNearestEven (pos : 0 < den) :
    IsNearestEven (exactQuanta num den / 2 ^ keptShift num den) (keptBits num den) := by
  have nearest := roundHalfEven_isNearestEven (num * resolution)
    (Nat.mul_pos pos (Nat.two_pow_pos (keptShift num den)))
  rw [exactQuanta, div_div]
  exact_mod_cast nearest

theorem keptBits_le (pos : 0 < den) : keptBits num den ≤ 2 ^ 53 := by
  apply (keptBits_isNearestEven pos).le_of_le
  rw [div_le_iff₀ (by positivity)]
  exact exactQuanta_le pos

theorem le_keptBits (pos : 0 < den) (shifted : keptShift num den ≠ 0) :
    2 ^ 52 ≤ keptBits num den := by
  apply (keptBits_isNearestEven pos).ge_of_ge
  rw [le_div_iff₀ (by positivity)]
  exact le_exactQuanta pos shifted

/-- A carry out of the bits kept does no harm. -/
theorem quantaOfBits_add {shift kept : Nat} (le : kept ≤ 2 ^ 53)
    (full : shift ≠ 0 → 2 ^ 52 ≤ kept) :
    quantaOfBits (shift * 2 ^ 52 + kept) = kept * 2 ^ shift := by
  by_cases small : kept < 2 ^ 52
  · have zero : shift = 0 := by
      by_contra shifted
      exact absurd (full shifted) (by omega)
    rw [quantaOfBits_subnormal (by omega), zero]
    omega
  by_cases carry : kept = 2 ^ 53
  · have exponent : (shift * 2 ^ 52 + kept) / 2 ^ 52 = shift + 2 := by omega
    have fraction : (shift * 2 ^ 52 + kept) % 2 ^ 52 = 0 := by omega
    rw [quantaOfBits_normal (by omega), exponent, fraction, carry, Nat.add_zero,
      show shift + 2 - 1 = 1 + shift by omega, Nat.pow_add 2 1, ← Nat.mul_assoc, ← Nat.pow_add]
  · have exponent : (shift * 2 ^ 52 + kept) / 2 ^ 52 = shift + 1 := by omega
    have fraction : 2 ^ 52 + (shift * 2 ^ 52 + kept) % 2 ^ 52 = kept := by omega
    rw [quantaOfBits_normal (by omega), exponent, fraction, Nat.add_sub_cancel]

theorem quantaOfBits_unboundedBits (pos : 0 < den) :
    quantaOfBits (unboundedBits num den) = keptBits num den * 2 ^ keptShift num den :=
  quantaOfBits_add (keptBits_le pos) (le_keptBits pos)

/-- A number is a multiple of a weight, or it needs no more bits than that weight leaves. -/
theorem quantaOfBits_multiple_or_le (bits shift : Nat) :
    (∃ k, quantaOfBits bits = k * 2 ^ shift) ∨
      shift ≠ 0 ∧ quantaOfBits bits ≤ 2 ^ 52 * 2 ^ shift := by
  by_cases unshifted : shift = 0
  · exact .inl ⟨quantaOfBits bits, by rw [unshifted, Nat.pow_zero, Nat.mul_one]⟩
  by_cases subnormal : bits / 2 ^ 52 = 0
  · have positive := Nat.two_pow_pos shift
    refine .inr ⟨unshifted, ?_⟩
    rw [quantaOfBits_subnormal subnormal]
    omega
  rw [quantaOfBits_normal subnormal]
  by_cases coarse : shift ≤ bits / 2 ^ 52 - 1
  · refine .inl ⟨(2 ^ 52 + bits % 2 ^ 52) * 2 ^ (bits / 2 ^ 52 - 1 - shift), ?_⟩
    rw [Nat.mul_assoc, ← Nat.pow_add, Nat.sub_add_cancel coarse]
  · refine .inr ⟨unshifted, ?_⟩
    calc (2 ^ 52 + bits % 2 ^ 52) * 2 ^ (bits / 2 ^ 52 - 1)
        ≤ 2 ^ 53 * 2 ^ (shift - 1) :=
          Nat.mul_le_mul (by omega) (Nat.pow_le_pow_right two_pos (by omega))
      _ = 2 ^ 52 * 2 ^ shift := by rw [← Nat.pow_add, ← Nat.pow_add]; congr 1; omega

/-- No number is nearer to a quotient than the one it is rounded to. -/
theorem distance_unboundedBits_le (pos : 0 < den) (num bits : Nat) :
    |exactQuanta num den - quantaOfBits (unboundedBits num den)|
      ≤ |exactQuanta num den - quantaOfBits bits| := by
  have weight : (0 : Rat) < 2 ^ keptShift num den := by positivity
  have scaled : ∀ k : Nat, |exactQuanta num den - (k * 2 ^ keptShift num den : Nat)|
      = |exactQuanta num den / 2 ^ keptShift num den - k| * 2 ^ keptShift num den := by
    intro k
    rw [← abs_of_pos weight, ← abs_mul, abs_of_pos weight, sub_mul, div_mul_cancel₀ _ weight.ne']
    push_cast
    rfl
  have multiples : ∀ k : Nat, |exactQuanta num den - quantaOfBits (unboundedBits num den)|
      ≤ |exactQuanta num den - (k * 2 ^ keptShift num den : Nat)| := by
    intro k
    rw [quantaOfBits_unboundedBits pos, scaled, scaled]
    exact mul_le_mul_of_nonneg_right ((keptBits_isNearestEven pos).le k) weight.le
  obtain ⟨k, multiple⟩ | ⟨shifted, below⟩ :=
    quantaOfBits_multiple_or_le bits (keptShift num den)
  · rw [multiple]
    exact multiples k
  · have least : ((2 ^ 52 * 2 ^ keptShift num den : Nat) : Rat) ≤ exactQuanta num den := by
      exact_mod_cast le_exactQuanta pos shifted
    have farther : (quantaOfBits bits : Rat) ≤ (2 ^ 52 * 2 ^ keptShift num den : Nat) := by
      exact_mod_cast below
    refine (multiples (2 ^ 52)).trans ?_
    rw [abs_of_nonneg (by linarith), abs_of_nonneg (by linarith)]
    linarith

/-- Numbers of different exponents lie a unit of the lower one apart. -/
theorem quantaOfBits_add_weight_le {bits beyond weight : Nat} (low : bits / 2 ^ 52 ≤ weight + 1)
    (high : weight + 2 ≤ beyond / 2 ^ 52) :
    quantaOfBits bits + 2 ^ weight ≤ quantaOfBits beyond := by
  have positive := Nat.two_pow_pos weight
  have below : quantaOfBits bits ≤ (2 ^ 53 - 1) * 2 ^ weight := by
    by_cases subnormal : bits / 2 ^ 52 = 0
    · rw [quantaOfBits_subnormal subnormal]
      omega
    · rw [quantaOfBits_normal subnormal]
      exact Nat.mul_le_mul (by omega) (Nat.pow_le_pow_right two_pos (by omega))
  have above : 2 ^ 52 * 2 ^ (weight + 1) ≤ quantaOfBits beyond := by
    rw [quantaOfBits_normal (by omega)]
    exact Nat.mul_le_mul (by omega) (Nat.pow_le_pow_right two_pos (by omega))
  have double : 2 ^ (weight + 1) = 2 ^ weight * 2 := Nat.pow_succ 2 weight
  omega

theorem resolution_lt : resolution < 2 ^ 2045 := by decide +kernel

/-- Between the greatest finite number and all beyond there is more than a whole one. -/
theorem quantaOfBits_add_resolution_lt {bits beyond : Nat} (finite : bits < infinityBits)
    (infinite : infinityBits ≤ beyond) :
    quantaOfBits bits + resolution < quantaOfBits beyond := by
  rw [infinityBits] at finite infinite
  have gap : quantaOfBits bits + 2 ^ 2045 ≤ quantaOfBits beyond :=
    quantaOfBits_add_weight_le (by omega) (by omega)
  exact (Nat.add_lt_add_left resolution_lt _).trans_le gap

end NearestBits

section FixedPlaces

variable {bits den n : Nat}

theorem abs_units_sub (pos : 0 < den) (quanta n : Nat) :
    |((quanta * den : Nat) : Rat) / resolution - n|
      = |exactQuanta n den - quanta| * ((den : Rat) / resolution) := by
  have positive : (0 : Rat) < den := by exact_mod_cast pos
  have whole : (0 : Rat) < resolution := by exact_mod_cast resolution_pos
  have scale : (0 : Rat) < (den : Rat) / resolution := div_pos positive whole
  have sides : ((quanta * den : Nat) : Rat) / resolution - n
      = -((exactQuanta n den - quanta) * ((den : Rat) / resolution)) := by
    rw [exactQuanta]
    push_cast
    field_simp
    ring
  rw [sides, abs_neg, abs_mul, abs_of_pos scale]

/-- What a finite number is rounded to is not read as infinite. -/
theorem unboundedBits_lt (pos : 0 < den) (finite : bits < infinityBits)
    (rounded : IsNearestEven ((quantaOfBits bits * den : Nat) / (resolution : Rat)) n) :
    unboundedBits n den < infinityBits := by
  by_contra beyond
  have gap : (quantaOfBits bits : Rat) + resolution < quantaOfBits (unboundedBits n den) := by
    exact_mod_cast quantaOfBits_add_resolution_lt finite (Nat.le_of_not_lt beyond)
  have whole : (0 : Rat) < resolution := by exact_mod_cast resolution_pos
  have one : (1 : Rat) ≤ den := by exact_mod_cast pos
  have error := rounded.le_half
  rw [abs_units_sub pos, mul_div_assoc', div_le_iff₀ whole] at error
  -- The two numbers on either side of the quotient would lie within a whole one.
  have near : |exactQuanta n den - quantaOfBits bits| ≤ 1 / 2 * resolution :=
    (le_mul_of_one_le_right (abs_nonneg _) one).trans error
  have nearer := (distance_unboundedBits_le pos n bits).trans near
  have upper := (abs_le.mp near).2
  have lower := (abs_le.mp nearer).1
  linarith

/-- A number rounded to fixed places, read as the nearest number and rounded again, gives the same
units as at first. -/
theorem roundHalfEven_nearestBits (pos : 0 < den) (finite : bits < infinityBits)
    (rounded : roundHalfEven (quantaOfBits bits * den) resolution = n) :
    nearestBits n den < infinityBits ∧
      roundHalfEven (quantaOfBits (nearestBits n den) * den) resolution = n := by
  have first := (roundHalfEven_eq_iff resolution_pos).mp rounded
  have below := unboundedBits_lt pos finite first
  have word : nearestBits n den = unboundedBits n den := by
    rw [nearestBits_eq_min, Nat.min_eq_left below.le]
  have closer := distance_unboundedBits_le pos n bits
  rw [word]
  refine ⟨below, (roundHalfEven_eq_iff resolution_pos).mpr (first.of_le ?_)⟩
  rw [abs_units_sub pos, abs_units_sub pos]
  exact mul_le_mul_of_nonneg_right closer
    (div_nonneg (Nat.cast_nonneg den) (Nat.cast_nonneg resolution))

end FixedPlaces

end Calculator.Binary64

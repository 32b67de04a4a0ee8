import Calculator.Proofs.FloatWords
import Calculator.ShortestDecimal

/-! # Rounding to the nearest number

Rounding depends on the quotient alone, not on how it is written, and it leaves a quotient alone
that is a binary64 number. So the written form of a number reads back as that number.
-/
namespace Calculator.Binary64

section RoundHalfEven

theorem roundHalfEven_mul (num den : Nat) {k : Nat} (h : 0 < k) :
    roundHalfEven (num * k) (den * k) = roundHalfEven num den := by
  have floor : num * k / (den * k) = num / den := Nat.mul_div_mul_right num den h
  have excess : 2 * (num * k % (den * k)) = 2 * (num % den) * k := by
    rw [Nat.mul_mod_mul_right, Nat.mul_assoc]
  have below : 2 * (num % den) * k < den * k ↔ 2 * (num % den) < den :=
    Nat.mul_lt_mul_right h
  have half : 2 * (num % den) * k = den * k ↔ 2 * (num % den) = den :=
    Nat.mul_right_cancel_iff h
  simp only [roundHalfEven, floor, excess, below, half]

theorem roundHalfEven_multiple (n : Nat) {den : Nat} (h : 0 < den) :
    roundHalfEven (n * den) den = n := by
  have exact : 2 * (n * den % den) < den := by
    rw [Nat.mul_mod_left]
    omega
  rw [roundHalfEven, if_pos (.inl exact), Nat.mul_div_cancel n h]

end RoundHalfEven

section NearestBits

/-- The word of a quotient depends on its value alone. -/
theorem nearestBits_mul (num den : Nat) {k : Nat} (h : 0 < k) :
    nearestBits (num * k) (den * k) = nearestBits num den := by
  have scaled : num * k * resolution = num * resolution * k := Nat.mul_right_comm num k resolution
  have floor : num * resolution * k / (den * k) = num * resolution / den :=
    Nat.mul_div_mul_right _ den h
  simp only [nearestBits, scaled, floor]
  rw [Nat.mul_right_comm den k, roundHalfEven_mul _ _ h]

theorem nearestBits_congr {num den num' den' : Nat} (pos : 0 < den) (pos' : 0 < den')
    (same : num * den' = num' * den) : nearestBits num den = nearestBits num' den' := by
  rw [← nearestBits_mul num den pos', ← nearestBits_mul num' den' pos, same,
    Nat.mul_comm den den']

theorem resolution_pos : 0 < resolution := by decide +kernel

theorem log2_quanta {fraction : Nat} (h : fraction < 2 ^ 52) (exponent : Nat) :
    ((2 ^ 52 + fraction) * 2 ^ exponent).log2 = 52 + exponent := by
  have pos : 0 < 2 ^ exponent := Nat.two_pow_pos exponent
  have low : 2 ^ 52 * 2 ^ exponent ≤ (2 ^ 52 + fraction) * 2 ^ exponent :=
    Nat.mul_le_mul_right _ (by omega)
  have high : (2 ^ 52 + fraction) * 2 ^ exponent < 2 ^ 53 * 2 ^ exponent :=
    Nat.mul_lt_mul_of_pos_right (by omega) pos
  have nonzero : (2 ^ 52 + fraction) * 2 ^ exponent ≠ 0 := Nat.ne_of_gt (Nat.mul_pos (by omega) pos)
  rw [← Nat.pow_add] at low high
  rw [Nat.log2_eq_iff nonzero, show 52 + exponent + 1 = 53 + exponent by omega]
  exact ⟨low, high⟩

theorem quantaOfBits_subnormal {bits : Nat} (h : bits / 2 ^ 52 = 0) : quantaOfBits bits = bits := by
  rw [quantaOfBits, if_pos h]

theorem quantaOfBits_normal {bits : Nat} (h : bits / 2 ^ 52 ≠ 0) :
    quantaOfBits bits = (2 ^ 52 + bits % 2 ^ 52) * 2 ^ (bits / 2 ^ 52 - 1) := by
  rw [quantaOfBits, if_neg h]

/-- The bits that rounding would drop are those of the exponent. -/
theorem shift_quanta (bits : Nat) : (quantaOfBits bits).log2 - 52 = bits / 2 ^ 52 - 1 := by
  by_cases subnormal : bits / 2 ^ 52 = 0
  · rw [quantaOfBits_subnormal subnormal]
    by_cases zero : bits = 0
    · simp [zero]
    · have low : bits.log2 < 52 := (Nat.log2_lt zero).mpr (by omega)
      omega
  · rw [quantaOfBits_normal subnormal, log2_quanta (Nat.mod_lt bits (Nat.two_pow_pos 52))]
    omega

theorem round_quanta (bits : Nat) :
    (bits / 2 ^ 52 - 1) * 2 ^ 52 + roundHalfEven (quantaOfBits bits) (2 ^ (bits / 2 ^ 52 - 1))
      = bits := by
  by_cases subnormal : bits / 2 ^ 52 = 0
  · have whole := roundHalfEven_multiple bits Nat.one_pos
    rw [Nat.mul_one] at whole
    rw [quantaOfBits_subnormal subnormal, subnormal, Nat.zero_sub, Nat.pow_zero, whole]
    omega
  · have parts := Nat.div_add_mod bits (2 ^ 52)
    rw [quantaOfBits_normal subnormal, roundHalfEven_multiple _ (Nat.two_pow_pos _)]
    omega

/-- A whole number of quanta that a word stands for is rounded to that word. -/
theorem nearestBits_quanta {bits : Nat} (h : bits < infinityBits) :
    nearestBits (quantaOfBits bits) resolution = bits := by
  have floor : quantaOfBits bits * resolution / resolution = quantaOfBits bits :=
    Nat.mul_div_cancel _ resolution_pos
  have rounded : ∀ shift, roundHalfEven (quantaOfBits bits * resolution) (resolution * 2 ^ shift)
      = roundHalfEven (quantaOfBits bits) (2 ^ shift) := by
    intro shift
    rw [Nat.mul_comm resolution, roundHalfEven_mul _ _ resolution_pos]
  simp only [nearestBits, floor, rounded, shift_quanta, round_quanta]
  exact Nat.min_eq_left (Nat.le_of_lt h)

end NearestBits

end Calculator.Binary64

namespace Calculator.ShortestDecimal
open Binary64

theorem ten_pow_exactPlaces : 10 ^ exactPlaces = resolution * 5 ^ exactPlaces := by
  decide +kernel

theorem readsBack_exact {bits : Nat} (h : bits < infinityBits) :
    readsBack bits ⟨exactUnits bits, exactPlaces⟩ = true := by
  have pos : 0 < 5 ^ exactPlaces := Nat.pow_pos (by decide)
  simp only [readsBack, beq_iff_eq, ten_pow_exactPlaces, exactUnits]
  rw [nearestBits_mul _ _ pos]
  exact nearestBits_quanta h

theorem readsBack_of_first {bits : Nat} {nearer farther d : Decimal}
    (h : (if readsBack bits nearer then some nearer
      else if readsBack bits farther then some farther else none) = some d) :
    readsBack bits d = true := by
  split at h
  · next near =>
    rw [← Option.some.inj h]
    exact near
  · split at h
    · next far =>
      rw [← Option.some.inj h]
      exact far
    · cases h

theorem readsBack_of_neighbour? {bits units cut : Nat} {d : Decimal}
    (h : neighbour? bits units cut = some d) : readsBack bits d = true :=
  readsBack_of_first h

theorem readsBack_ofBits {bits : Nat} (h : bits < infinityBits) :
    readsBack bits (ofBits bits) = true := by
  unfold ofBits
  dsimp only
  cases found : (List.range' 1 17).findSome? fun digits =>
      neighbour? bits (exactUnits bits) ((Nat.toDigits 10 (exactUnits bits)).length - digits) with
  | none => exact readsBack_exact h
  | some d =>
    obtain ⟨digits, -, neighbour⟩ := List.exists_of_findSome?_eq_some found
    exact readsBack_of_neighbour? neighbour

end Calculator.ShortestDecimal

import Calculator.Binary64
import Mathlib

/-! # Words of binary64 numbers

A number is its word: packing undoes unpacking, so numbers with one word are one number, and a word
up to infinity is kept by the number made of it.
-/
namespace Calculator.Binary64
open Float.Model UnpackedFloat

abbrev exponentField (b : BitVec 64) : BitVec 11 := @unpackExponent Format.binary64 b

abbrev mantissaField (b : BitVec 64) : BitVec 52 := @unpackMantissa Format.binary64 b

abbrev signField (b : BitVec 64) : BitVec 1 := @unpackSign Format.binary64 b

theorem toNat_exponentField (b : BitVec 64) :
    (exponentField b).toNat = b.toNat / 2 ^ 52 % 2 ^ 11 := by
  simp [exponentField, unpackExponent, BitVec.extractLsb_toNat, Nat.shiftRight_eq_div_pow]

theorem toNat_mantissaField (b : BitVec 64) : (mantissaField b).toNat = b.toNat % 2 ^ 52 := by
  simp [mantissaField, unpackMantissa, BitVec.extractLsb_toNat]

theorem toNat_signField (b : BitVec 64) : (signField b).toNat = b.toNat / 2 ^ 63 := by
  have := b.isLt
  simp [signField, unpackSign, BitVec.extractLsb_toNat, Nat.shiftRight_eq_div_pow]
  omega

theorem exponentField_eq_ones (b : BitVec 64) :
    exponentField b = -1#11 ↔ b.toNat / 2 ^ 52 % 2 ^ 11 = 2047 := by
  rw [← BitVec.toNat_inj, toNat_exponentField]
  rfl

theorem mantissaField_eq_zero (b : BitVec 64) :
    mantissaField b = 0#52 ↔ b.toNat % 2 ^ 52 = 0 := by
  rw [← BitVec.toNat_inj, toNat_mantissaField]
  rfl

theorem toBits_ofBits {w : UInt64} (h : w.toNat % 2 ^ 63 ≤ infinityBits) :
    (Float.ofBits w).toBits = w := by
  have valid : Format.binary64.Valid w.toBitVec := by
    refine ⟨fun ones empty => absurd ?_ empty⟩
    have exponent := (exponentField_eq_ones _).mp ones
    apply (mantissaField_eq_zero _).mpr
    rw [infinityBits, ← UInt64.toNat_toBitVec] at h
    omega
  exact UInt64.toBitVec_inj.mp (pack_unpack_of_valid valid)

theorem isFinite_iff (x : Float) : x.isFinite = true ↔ magnitudeBits x < infinityBits := by
  have exponent := exponentField_eq_ones x.toBits.toBitVec
  show (UnpackedFloat.unpack Format.binary64 x.toBits.toBitVec).isFinite = true ↔
    x.toBits.toBitVec.toNat % 2 ^ 63 < infinityBits
  rw [UnpackedFloat.unpack, infinityBits]
  dsimp only
  by_cases ones : exponentField x.toBits.toBitVec = -1#11
  · have top := exponent.mp ones
    refine iff_of_false ?_ (by omega)
    rw [if_pos ones]
    split <;> exact Bool.false_ne_true
  · have top := (not_congr exponent).mp ones
    refine iff_of_true ?_ (by omega)
    rw [if_neg ones]
    split
    · split <;> rfl
    · rfl

theorem isNaN_of_isFinite {x : Float} (h : x.isFinite = true) : x.isNaN = false := by
  unfold Float.isFinite Float.Model.isFinite at h
  unfold Float.isNaN Float.Model.isNaN
  cases unpacked : x.toModel.unpack with
  | notANumber => simp [unpacked, UnpackedFloat.isFinite] at h
  | infinity s => rfl
  | zero s => rfl
  | finite s m e pos => rfl

theorem isInf_of_isFinite {x : Float} (h : x.isFinite = true) : x.isInf = false := by
  unfold Float.isFinite Float.Model.isFinite at h
  unfold Float.isInf Float.Model.isInf
  cases unpacked : x.toModel.unpack with
  | notANumber => rfl
  | infinity s => simp [unpacked, UnpackedFloat.isFinite] at h
  | zero s => rfl
  | finite s m e pos => rfl

section Nearest

theorem nearestBits_le (num den : Nat) : nearestBits num den ≤ infinityBits := by
  unfold nearestBits
  exact Nat.min_le_right _ _

theorem toNat_ofNat_word {bits : Nat} (h : bits ≤ infinityBits) (negative : Bool) :
    (UInt64.ofNat (bits + if negative then 2 ^ 63 else 0)).toNat
      = bits + if negative then 2 ^ 63 else 0 := by
  apply UInt64.toNat_ofNat_of_lt
  rw [infinityBits] at h
  split <;> simp [UInt64.size] <;> omega

theorem word_mod {bits : Nat} (h : bits ≤ infinityBits) (negative : Bool) :
    (bits + if negative then 2 ^ 63 else 0) % 2 ^ 63 = bits := by
  rw [infinityBits] at h
  split <;> omega

theorem word_sign {bits : Nat} (h : bits ≤ infinityBits) (negative : Bool) :
    decide (2 ^ 63 ≤ bits + if negative then 2 ^ 63 else 0) = negative := by
  rw [infinityBits] at h
  cases negative with
  | false => simp; omega
  | true => simp

theorem toNat_toBits_nearest (negative : Bool) (num den : Nat) :
    (nearest negative num den).toBits.toNat
      = nearestBits num den + if negative then 2 ^ 63 else 0 := by
  have bound := nearestBits_le num den
  have word := toNat_ofNat_word bound negative
  rw [nearest, toBits_ofBits, word]
  rw [word, word_mod bound]
  exact bound

theorem magnitudeBits_nearest (negative : Bool) (num den : Nat) :
    magnitudeBits (nearest negative num den) = nearestBits num den := by
  rw [magnitudeBits, toNat_toBits_nearest, word_mod (nearestBits_le num den)]

theorem isNegative_nearest (negative : Bool) (num den : Nat) :
    isNegative (nearest negative num den) = negative := by
  rw [isNegative, toNat_toBits_nearest, word_sign (nearestBits_le num den)]

theorem magnitudeBits_add_sign (x : Float) :
    magnitudeBits x + (if isNegative x then 2 ^ 63 else 0) = x.toBits.toNat := by
  have size := x.toBits.toNat_lt
  rw [magnitudeBits, isNegative]
  by_cases sign : 2 ^ 63 ≤ x.toBits.toNat
  · simp only [sign, decide_true, if_true]
    omega
  · simp only [sign, decide_false, Bool.false_eq_true, if_false]
    omega

theorem eq_of_sign_of_magnitude {x y : Float} (sign : isNegative x = isNegative y)
    (magnitude : magnitudeBits x = magnitudeBits y) : x = y := by
  have word : x.toBits.toNat = y.toBits.toNat := by
    rw [← magnitudeBits_add_sign x, ← magnitudeBits_add_sign y, sign, magnitude]
  exact Float.toBits_inj.mp (UInt64.toNat_inj.mp word)

end Nearest

section Negation

theorem toNat_packComponents (s : Sign) (e : BitVec 11) (m : BitVec 52) :
    (packComponents Format.binary64 s e m).toNat
      = s.toBitVec.toNat * 2 ^ 63 + e.toNat * 2 ^ 52 + m.toNat := by
  have parts : (s.toBitVec ++ e ++ m).toNat
      = s.toBitVec.toNat * 2 ^ 63 + e.toNat * 2 ^ 52 + m.toNat := by
    rw [BitVec.toNat_append, BitVec.toNat_append, ← Nat.shiftLeft_add_eq_or_of_lt e.isLt,
      ← Nat.shiftLeft_add_eq_or_of_lt m.isLt]
    simp only [Nat.shiftLeft_eq]
    omega
  exact parts

/-- Negation changes the sign field alone, unless the word stands for no number. -/
theorem pack_neg_unpack {b : BitVec 64} (number : exponentField b ≠ -1#11) :
    UnpackedFloat.pack Format.binary64 (UnpackedFloat.unpack Format.binary64 b).neg
      = packComponents Format.binary64 (-Sign.ofBitVec (signField b)) (exponentField b)
        (mantissaField b) := by
  have opposite : UnpackedFloat.unpack Format.binary64
      (packComponents Format.binary64 (-Sign.ofBitVec (signField b)) (exponentField b)
        (mantissaField b)) = (UnpackedFloat.unpack Format.binary64 b).neg := by
    unfold UnpackedFloat.unpack
    simp only [unpackSign_packComponents, unpackExponent_packComponents,
      unpackMantissa_packComponents, Sign.ofBitVec_toBitVec]
    rw [if_neg number, if_neg number]
    split
    · split
      · rfl
      · rfl
    · rfl
  have valid : Format.binary64.Valid (packComponents Format.binary64
      (-Sign.ofBitVec (signField b)) (exponentField b) (mantissaField b)) := by
    refine ⟨fun ones _ => absurd ?_ number⟩
    rw [unpackExponent_packComponents] at ones
    exact ones
  rw [← opposite, pack_unpack_of_valid valid]

theorem toNat_neg_sign (s : BitVec 1) :
    (-Sign.ofBitVec s).toBitVec.toNat = 1 - s.toNat := by
  revert s
  decide

theorem exponentField_ne_ones {x : Float} (h : x.isFinite = true) :
    exponentField x.toBits.toBitVec ≠ -1#11 := by
  have below := (isFinite_iff x).mp h
  intro ones
  have top := (exponentField_eq_ones _).mp ones
  rw [magnitudeBits, infinityBits, ← UInt64.toNat_toBitVec] at below
  omega

theorem toNat_toBits_neg {x : Float} (h : x.isFinite = true) :
    (-x).toBits.toNat = magnitudeBits x + if isNegative x then 0 else 2 ^ 63 := by
  have packed := congrArg BitVec.toNat (pack_neg_unpack (exponentField_ne_ones h))
  rw [toNat_packComponents, toNat_neg_sign, toNat_exponentField, toNat_mantissaField,
    toNat_signField] at packed
  have word : (-x).toBits.toNat = (1 - x.toBits.toNat / 2 ^ 63) * 2 ^ 63
      + x.toBits.toNat / 2 ^ 52 % 2 ^ 11 * 2 ^ 52 + x.toBits.toNat % 2 ^ 52 := packed
  have size := x.toBits.toNat_lt
  rw [word, magnitudeBits, isNegative]
  by_cases sign : 2 ^ 63 ≤ x.toBits.toNat
  · simp only [sign, decide_true, if_true]
    omega
  · simp only [sign, decide_false, Bool.false_eq_true, if_false]
    omega

theorem magnitudeBits_neg {x : Float} (h : x.isFinite = true) :
    magnitudeBits (-x) = magnitudeBits x := by
  have below : magnitudeBits x < 2 ^ 63 := Nat.mod_lt _ (Nat.two_pow_pos 63)
  rw [magnitudeBits, toNat_toBits_neg h]
  split <;> omega

theorem isNegative_neg {x : Float} (h : x.isFinite = true) :
    isNegative (-x) = !isNegative x := by
  have below : magnitudeBits x < 2 ^ 63 := Nat.mod_lt _ (Nat.two_pow_pos 63)
  rw [isNegative, toNat_toBits_neg h]
  cases isNegative x with
  | false => simp
  | true => simp; omega

theorem isFinite_neg {x : Float} (h : x.isFinite = true) : (-x).isFinite = true := by
  rw [isFinite_iff, magnitudeBits_neg h]
  exact (isFinite_iff x).mp h

end Negation

end Calculator.Binary64

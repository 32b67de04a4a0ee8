import Calculator.TrigonometryInDegrees
import Calculator.Proofs.NearestDistance

/-!
# Angles of whole degrees

The remainder of a whole angle in a turn is never rounded, however large the angle is and on
whichever side of zero. So its exact answer is the one in the table at that remainder.
-/
namespace Calculator

namespace Binary64

theorem nearestBits_whole {k : Nat} (small : k < 2 ^ 53) :
    nearestBits (k * resolution) resolution < infinityBits ∧
      quantaOfBits (nearestBits (k * resolution) resolution) = k * resolution := by
  obtain ⟨bits, finite, whole⟩ : ∃ bits < infinityBits, quantaOfBits bits = k * resolution := by
    by_cases zero : k = 0
    · refine ⟨0, by decide, ?_⟩
      rw [zero, Nat.zero_mul]
      rfl
    have places : k.log2 < 53 := (Nat.log2_lt zero).mpr small
    -- The leading bit of the number is moved to the place of the implicit one.
    have low : 2 ^ 52 ≤ k * 2 ^ (52 - k.log2) := by
      calc 2 ^ 52 = 2 ^ k.log2 * 2 ^ (52 - k.log2) := by rw [← Nat.pow_add]; congr 1; omega
        _ ≤ k * 2 ^ (52 - k.log2) := Nat.mul_le_mul_right _ (Nat.log2_self_le zero)
    have high : k * 2 ^ (52 - k.log2) ≤ 2 ^ 53 := by
      calc k * 2 ^ (52 - k.log2) ≤ 2 ^ (k.log2 + 1) * 2 ^ (52 - k.log2) :=
            Nat.mul_le_mul_right _ Nat.lt_log2_self.le
        _ = 2 ^ 53 := by rw [← Nat.pow_add]; congr 1; omega
    refine ⟨(1022 + k.log2) * 2 ^ 52 + k * 2 ^ (52 - k.log2), ?_, ?_⟩
    · rw [infinityBits]
      omega
    · rw [quantaOfBits_add high fun _ => low, Nat.mul_assoc, ← Nat.pow_add, resolution]
      congr 2
      omega
  rw [← whole, nearestBits_quanta finite]
  exact ⟨finite, rfl⟩

end Binary64

namespace TrigFunction
open Binary64

variable {x y : Float} {m n : Int}

section Whole

theorem value_eq_int_iff (n : Int) :
    value x = n ↔ (if isNegative x then -(quanta x : Int) else quanta x) = n * resolution := by
  have positive : (0 : Rat) < (resolution : Rat) := by exact_mod_cast resolution_pos
  have signed : value x
      = ((if isNegative x then -(quanta x : Int) else quanta x : Int) : Rat) / resolution := by
    rw [value]
    split <;> push_cast
    · rw [neg_div]
    · rfl
  rw [signed, div_eq_iff positive.ne']
  exact_mod_cast Iff.rfl

theorem quanta_of_value (whole : value x = n) :
    quanta x = n.natAbs * resolution ∧ if isNegative x then n ≤ 0 else 0 ≤ n := by
  have positive := resolution_pos
  have signed := (value_eq_int_iff n).mp whole
  generalize resolution = r at positive signed ⊢
  have size : |(quanta x : Int)| = |n * (r : Int)| := by
    rw [← signed]
    split <;> simp
  rw [abs_mul, Nat.abs_cast, Nat.abs_cast, ← Int.natCast_natAbs] at size
  refine ⟨by exact_mod_cast size, ?_⟩
  split at signed
  · next negative =>
    rw [if_pos negative]
    refine nonpos_of_mul_nonpos_left ?_ (Int.natCast_pos.mpr positive)
    omega
  · next negative =>
    rw [if_neg negative]
    refine nonneg_of_mul_nonneg_left ?_ (Int.natCast_pos.mpr positive)
    omega

theorem isWhole_iff : isWhole x = true ↔ x.isFinite = true ∧ ∃ n : Int, value x = n := by
  rw [isWhole, Bool.and_eq_true, decide_eq_true_iff]
  refine and_congr_right fun _ => ⟨fun divides => ?_, ?_⟩
  · obtain ⟨k, multiple⟩ := Nat.dvd_of_mod_eq_zero divides
    refine ⟨if isNegative x then -(k : Int) else k, (value_eq_int_iff _).mpr ?_⟩
    rw [multiple]
    split <;> push_cast <;> ring
  · rintro ⟨n, whole⟩
    rw [(quanta_of_value whole).1]
    exact Nat.mul_mod_left _ _

theorem truncated_of_value (whole : value x = n) : truncated x = n := by
  obtain ⟨size, sign⟩ := quanta_of_value whole
  have magnitude : (quanta x : Int) / (resolution : Int) = n.natAbs := by
    rw [size, Nat.cast_mul]
    exact Int.mul_ediv_cancel _ (by exact_mod_cast resolution_pos.ne')
  simp only [truncated, magnitude]
  split
  · next negative =>
    rw [if_pos negative] at sign
    omega
  · next positive =>
    rw [if_neg positive] at sign
    omega

end Whole

section WithinTurn

/-- Within one turn, an angle of whole degrees is its remainder; a zero keeps its sign. -/
theorem withinTurn_of_value (finite : x.isFinite = true) (whole : value x = n) :
    withinTurn x =
      nearest (isNegative x && n % 360 = 0) ((n % 360).toNat * resolution) resolution := by
  obtain ⟨size, sign⟩ := quanta_of_value whole
  have rest : n.natAbs * resolution % (360 * resolution) = n.natAbs % 360 * resolution :=
    Nat.mul_mod_mul_right _ _ _
  have nonzero : n.natAbs % 360 * resolution ≠ 0 ↔ n % 360 ≠ 0 := by
    rw [Nat.mul_ne_zero_iff, and_iff_left resolution_pos.ne']
    omega
  simp only [withinTurn, finite, if_true, size, rest, nonzero]
  cases negative : isNegative x with
  | true =>
    rw [negative, if_pos rfl] at sign
    by_cases zero : n % 360 = 0
    · have back : n.natAbs % 360 = (n % 360).toNat := by omega
      simp [zero, back]
    · have back : 360 - n.natAbs % 360 = (n % 360).toNat := by omega
      simp [zero, ← back, Nat.sub_mul]
  | false =>
    rw [negative, if_neg Bool.false_ne_true] at sign
    have same : n.natAbs % 360 = (n % 360).toNat := by omega
    simp [same]

/-- The remainder is never rounded. -/
theorem value_withinTurn (finite : x.isFinite = true) (whole : value x = n) :
    (withinTurn x).isFinite = true ∧ value (withinTurn x) = (n % 360 : Int) := by
  have small : (n % 360).toNat < 2 ^ 53 := by omega
  obtain ⟨below, exact⟩ := nearestBits_whole small
  rw [withinTurn_of_value finite whole]
  constructor
  · rw [isFinite_iff, magnitudeBits_nearest]
    exact below
  · rw [value_eq_int_iff, isNegative_nearest, quanta, magnitudeBits_nearest, exact]
    generalize resolution = r
    rw [Nat.cast_mul, Int.toNat_of_nonneg (Int.emod_nonneg n (by decide))]
    split
    · next zero =>
      have none : n % 360 = 0 := by simpa using And.right (Bool.and_eq_true_iff.mp zero)
      rw [none, Int.zero_mul, Int.neg_zero]
    · rfl

/-- Angles whole turns apart have one remainder, unless it is a zero of either sign. -/
theorem withinTurn_congr (hx : x.isFinite = true) (hy : y.isFinite = true) (hm : value x = m)
    (hn : value y = n) (h : m ≡ n [ZMOD 360]) (nonzero : m % 360 ≠ 0) :
    withinTurn x = withinTurn y := by
  have same : m % 360 = n % 360 := h
  rw [withinTurn_of_value hx hm, withinTurn_of_value hy hn, ← same]
  simp [nonzero]

end WithinTurn

section Answers

variable {f : TrigFunction}

/-- The test for remarkable angles turns none away that has an entry in some table. -/
theorem remarkable_of_tabled? {degrees : Int} {answer : TrigValue}
    (h : f.tabled? degrees = some answer) : degrees % 30 = 0 ∨ degrees % 45 = 0 := by
  unfold tabled? at h
  cases f <;> dsimp only at h <;> split at h <;> simp_all

theorem remarkable?_of_value (finite : x.isFinite = true) (whole : value x = n) :
    remarkable? x = if n % 360 % 30 = 0 ∨ n % 360 % 45 = 0 then some (n % 360) else none := by
  have degrees : truncated (withinTurn x) = n % 360 :=
    truncated_of_value (value_withinTurn finite whole).2
  rw [remarkable?, if_pos (isWhole_iff.mpr ⟨finite, n, whole⟩), degrees]

def exactAt? (f : TrigFunction) (n : Int) : Option TrigValue := f.tabled? (n % 360)

theorem exactAnswer?_of_value (finite : x.isFinite = true) (whole : value x = n)
    (f : TrigFunction) : f.exactAnswer? x = f.exactAt? n := by
  rw [exactAnswer?, remarkable?_of_value finite whole, exactAt?]
  split
  · rfl
  · next unremarkable =>
    cases found : f.tabled? (n % 360) with
    | none => rfl
    | some answer => exact absurd (remarkable_of_tabled? found) unremarkable

theorem whole_of_exactAnswer? {answer : TrigValue} (h : f.exactAnswer? x = some answer) :
    x.isFinite = true ∧ ∃ n : Int, value x = n := by
  obtain ⟨degrees, remarkable, -⟩ := Option.bind_eq_some_iff.mp h
  rw [remarkable?] at remarkable
  split at remarkable
  · next whole => exact isWhole_iff.mp whole
  · cases remarkable

theorem exactAt?_congr (h : m ≡ n [ZMOD 360]) (f : TrigFunction) : f.exactAt? m = f.exactAt? n := by
  rw [exactAt?, exactAt?, h]

theorem exactAt?_eq_none (f : TrigFunction) (off : n % 15 ≠ 0) : f.exactAt? n = none := by
  rw [exactAt?]
  cases found : f.tabled? (n % 360) with
  | none => rfl
  | some answer =>
    have remarkable := remarkable_of_tabled? found
    omega

/-- The angles of a turn at which there may be an answer. -/
theorem exists_multiple (on : n % 15 = 0) : ∃ k < 24, n ≡ ((15 * k : Nat) : Int) [ZMOD 360] := by
  refine ⟨(n % 360).toNat / 15, by omega, ?_⟩
  rw [Int.ModEq]
  omega

end Answers

end TrigFunction

end Calculator

import Calculator.Proofs.TrigonometricPoles

/-!
# Identities between whole angles

The exact answers for whole numbers of degrees obey the identities of trigonometry, for angles of
any size and sign. The answer at an angle depends on its remainder in a turn alone, which is never
rounded; so each identity holds because the tables of one turn obey it. What is computed where they
have no answer depends on the same remainder.
-/
namespace Calculator

def TrigValue.opposite : TrigValue → TrigValue
  | .value x => .value (-x)
  | .pole => .pole

namespace TrigFunction
open Binary64

/-- Two answers are the same number, a zero having no sign, or both a pole, or both missing. -/
def SameAnswer : Option TrigValue → Option TrigValue → Prop
  | some (.value x), some (.value y) => x == y
  | a, b => a = b

instance decidableSameAnswer (a b : Option TrigValue) : Decidable (SameAnswer a b) := by
  unfold SameAnswer
  split <;> infer_instance

section Table

variable {m n : Int}

/-- A relation between the answers at two angles, the second one anywhere and the first one moved
with it, need only be checked where there may be answers. -/
theorem related_of_turn (R : Option TrigValue → Option TrigValue → Prop) (missing : R none none)
    (shift : Int → Int) (turns : ∀ m n, m ≡ n [ZMOD 360] → shift m ≡ shift n [ZMOD 360])
    (offs : ∀ n, n % 15 ≠ 0 → shift n % 15 ≠ 0) {f g : TrigFunction}
    (table : ∀ k < 24, R (f.exactAt? (shift (15 * k : Nat))) (g.exactAt? (15 * k : Nat)))
    (n : Int) : R (f.exactAt? (shift n)) (g.exactAt? n) := by
  by_cases on : n % 15 = 0
  · obtain ⟨k, below, same⟩ := exists_multiple on
    rw [exactAt?_congr (turns n _ same), exactAt?_congr same]
    exact table k below
  · rw [exactAt?_eq_none f (offs n on), exactAt?_eq_none g on]
    exact missing

theorem exactAt?_add_halfTurn (n : Int) {f : TrigFunction} (hf : f ∈ [tan, cot]) :
    f.exactAt? (n + 180) = f.exactAt? n := by
  have table : ∀ f ∈ [tan, cot], ∀ k < 24,
      f.exactAt? ((15 * k : Nat) + 180) = f.exactAt? (15 * k : Nat) := by
    decide +kernel
  exact related_of_turn Eq rfl (· + 180) (fun _ _ same => same.add_right 180) (by omega)
    (table f hf) n

theorem exactAt?_congr_half (h : m ≡ n [ZMOD 180]) {f : TrigFunction} (hf : f ∈ [tan, cot]) :
    f.exactAt? m = f.exactAt? n := by
  have turns : m ≡ n [ZMOD 360] ∨ m ≡ n + 180 [ZMOD 360] := by
    simp only [Int.ModEq] at h ⊢
    omega
  obtain whole | half := turns
  · exact exactAt?_congr whole f
  · rw [exactAt?_congr half, exactAt?_add_halfTurn n hf]

theorem exactAt?_complement (n : Int) {f g : TrigFunction} (hf : (f, g) ∈ [(sin, cos), (tan, cot)]) :
    f.exactAt? (90 - n) = g.exactAt? n := by
  have table : ∀ p ∈ [(sin, cos), (tan, cot)], ∀ k < 24,
      p.1.exactAt? (90 - (15 * k : Nat)) = p.2.exactAt? (15 * k : Nat) := by
    decide +kernel
  exact related_of_turn Eq rfl (90 - ·) (fun _ _ same => same.sub_left 90) (by omega)
    (table (f, g) hf) n

theorem exactAt?_cos_neg (n : Int) : cos.exactAt? (-n) = cos.exactAt? n := by
  have table : ∀ k < 24, cos.exactAt? (-(15 * k : Nat)) = cos.exactAt? (15 * k : Nat) := by
    decide +kernel
  exact related_of_turn Eq rfl (-·) (fun _ _ same => same.neg) (by omega) table n

theorem exactAt?_neg (n : Int) {f : TrigFunction} (hf : f ∈ [sin, tan, cot]) :
    SameAnswer (f.exactAt? (-n)) ((f.exactAt? n).map .opposite) := by
  have table : ∀ f ∈ [sin, tan, cot], ∀ k < 24,
      SameAnswer (f.exactAt? (-(15 * k : Nat))) ((f.exactAt? (15 * k : Nat)).map .opposite) := by
    decide +kernel
  exact related_of_turn (fun a b => SameAnswer a (b.map .opposite)) rfl (-·)
    (fun _ _ same => same.neg) (by omega) (table f hf) n

theorem exactAt?_halfTurn (n : Int) {f : TrigFunction} (hf : f ∈ [sin, cos]) :
    SameAnswer (f.exactAt? (n + 180)) ((f.exactAt? n).map .opposite) := by
  have table : ∀ f ∈ [sin, cos], ∀ k < 24,
      SameAnswer (f.exactAt? ((15 * k : Nat) + 180)) ((f.exactAt? (15 * k : Nat)).map .opposite) := by
    decide +kernel
  exact related_of_turn (fun a b => SameAnswer a (b.map .opposite)) rfl (· + 180)
    (fun _ _ same => same.add_right 180) (by omega) (table f hf) n

/-- A quotient has a pole where its divisor is zero. -/
theorem exactAt?_pole_iff (n : Int) {f h : TrigFunction} (hf : (f, h) ∈ [(tan, cos), (cot, sin)]) :
    f.exactAt? n = some .pole ↔ SameAnswer (h.exactAt? n) (some (.value 0)) := by
  have missing : none = some TrigValue.pole ↔ SameAnswer none (some (.value 0)) := by decide
  have table : ∀ p ∈ [(tan, cos), (cot, sin)], ∀ k < 24, p.1.exactAt? (15 * k : Nat) = some .pole ↔
      SameAnswer (p.2.exactAt? (15 * k : Nat)) (some (.value 0)) := by
    decide +kernel
  exact related_of_turn (fun a b => a = some .pole ↔ SameAnswer b (some (.value 0))) missing id
    (fun _ _ same => same) (fun _ off => off) (table (f, h) hf) n

theorem exactAt?_product (n : Int) {f g h : TrigFunction}
    (hf : (f, g, h) ∈ [(tan, cos, sin), (cot, sin, cos)]) {x y z : Float}
    (hx : f.exactAt? n = some (.value x)) (hy : g.exactAt? n = some (.value y))
    (hz : h.exactAt? n = some (.value z)) : (x * y == z) = true := by
  have table : ∀ p ∈ [(tan, cos, sin), (cot, sin, cos)], ∀ k < 24,
      (match p.1.exactAt? (15 * k : Nat), p.2.1.exactAt? (15 * k : Nat),
          p.2.2.exactAt? (15 * k : Nat) with
        | some (.value x), some (.value y), some (.value z) => x * y == z
        | _, _, _ => true) = true := by
    decide +kernel
  have on : n % 15 = 0 := by
    by_contra off
    rw [exactAt?_eq_none f off] at hx
    cases hx
  obtain ⟨k, below, same⟩ := exists_multiple on
  rw [exactAt?_congr same] at hx hy hz
  have product := table (f, g, h) hf k below
  rw [hx, hy, hz] at product
  exact product

end Table

/-- Whole turns apart, answers are the same, from the table or computed. At no turns at all the
table has them, so the sign of a zero does not matter. -/
theorem apply_congr {x y : Float} {m n : Int} (hx : x.isFinite = true) (hy : y.isFinite = true)
    (hm : value x = m) (hn : value y = n) (h : m ≡ n [ZMOD 360]) (f : TrigFunction) :
    f.apply x = f.apply y := by
  rw [apply, apply, exactAnswer?_of_value hx hm, exactAnswer?_of_value hy hn, exactAt?_congr h]
  by_cases zero : m % 360 = 0
  · have start : n ≡ 0 [ZMOD 360] := h.symm.trans zero
    have table : ∀ g : TrigFunction, (g.exactAt? 0).isSome = true := by
      rintro (_ | _ | _ | _) <;> rfl
    obtain ⟨answer, found⟩ := Option.isSome_iff_exists.mp (table f)
    rw [exactAt?_congr start, found, Option.getD_some, Option.getD_some]
  · have same : f.computed x = f.computed y := by
      simp only [computed, withinTurn_congr hx hy hm hn h zero]
    rw [same]

theorem apply_withinTurn {x : Float} {n : Int} (finite : x.isFinite = true) (whole : value x = n)
    (f : TrigFunction) :
    f.exactAnswer? (withinTurn x) = f.exactAnswer? x ∧ f.apply (withinTurn x) = f.apply x := by
  obtain ⟨finite', whole'⟩ := value_withinTurn finite whole
  have same : n % 360 ≡ n [ZMOD 360] := Int.mod_modEq n 360
  refine ⟨?_, apply_congr finite' finite whole' whole same f⟩
  rw [exactAnswer?_of_value finite' whole', exactAnswer?_of_value finite whole,
    exactAt?_congr same]

/-- What the answers at an angle of `m` degrees and one of `n` degrees have to do with each other.
A missing answer goes with a missing one and a pole with a pole. -/
structure Identities (x y : Float) (m n : Int) : Prop where
  /-- The remainder in a turn is exact, and nothing changes at it. -/
  remainder : value (withinTurn x) = (m % 360 : Int) ∧ ∀ f : TrigFunction,
    f.exactAnswer? (withinTurn x) = f.exactAnswer? x ∧ f.apply (withinTurn x) = f.apply x
  /-- Whole turns apart nothing changes, whether it is looked up or computed. -/
  turn : m ≡ n [ZMOD 360] → ∀ f : TrigFunction,
    f.exactAnswer? x = f.exactAnswer? y ∧ f.apply x = f.apply y
  halfTurn : m ≡ n [ZMOD 180] → ∀ f ∈ [tan, cot], f.exactAnswer? x = f.exactAnswer? y
  oddHalfTurn : m ≡ n + 180 [ZMOD 360] → ∀ f ∈ [sin, cos],
    SameAnswer (f.exactAnswer? x) ((f.exactAnswer? y).map .opposite)
  complement : m + n ≡ 90 [ZMOD 360] →
    sin.exactAnswer? x = cos.exactAnswer? y ∧ tan.exactAnswer? x = cot.exactAnswer? y
  opposite : m + n ≡ 0 [ZMOD 360] →
    (∀ f ∈ [sin, tan, cot], SameAnswer (f.exactAnswer? x) ((f.exactAnswer? y).map .opposite)) ∧
      cos.exactAnswer? x = cos.exactAnswer? y
  tangentPole : (tan.apply x = .pole ↔ tan.exactAnswer? x = some .pole) ∧
    (tan.exactAnswer? x = some .pole ↔ SameAnswer (cos.exactAnswer? x) (some (.value 0)))
  cotangentPole : (cot.apply x = .pole ↔ cot.exactAnswer? x = some .pole) ∧
    (cot.exactAnswer? x = some .pole ↔ SameAnswer (sin.exactAnswer? x) (some (.value 0)))
  tangentProduct : ∀ t c s, tan.exactAnswer? x = some (.value t) →
    cos.exactAnswer? x = some (.value c) → sin.exactAnswer? x = some (.value s) → t * c == s
  cotangentProduct : ∀ t s c, cot.exactAnswer? x = some (.value t) →
    sin.exactAnswer? x = some (.value s) → cos.exactAnswer? x = some (.value c) → t * s == c

/-- Any two finite angles of whole degrees obey the identities, however large they are and on
whichever side of zero. -/
theorem whole_angles_obey {x y : Float} {m n : Int} (hx : x.isFinite = true)
    (hy : y.isFinite = true) (hm : value x = m) (hn : value y = n) : Identities x y m n where
  remainder := ⟨(value_withinTurn hx hm).2, apply_withinTurn hx hm⟩
  turn same f := by
    refine ⟨?_, apply_congr hx hy hm hn same f⟩
    rw [exactAnswer?_of_value hx hm, exactAnswer?_of_value hy hn, exactAt?_congr same]
  halfTurn same f hf := by
    rw [exactAnswer?_of_value hx hm, exactAnswer?_of_value hy hn, exactAt?_congr_half same hf]
  oddHalfTurn same f hf := by
    rw [exactAnswer?_of_value hx hm, exactAnswer?_of_value hy hn, exactAt?_congr same]
    exact exactAt?_halfTurn n hf
  complement sum := by
    have rest : m ≡ 90 - n [ZMOD 360] := by simpa using sum.sub_right n
    rw [exactAnswer?_of_value hx hm, exactAnswer?_of_value hx hm, exactAnswer?_of_value hy hn,
      exactAnswer?_of_value hy hn, exactAt?_congr rest, exactAt?_congr rest]
    exact ⟨exactAt?_complement n (by simp), exactAt?_complement n (by simp)⟩
  opposite sum := by
    have rest : m ≡ -n [ZMOD 360] := by simpa using sum.sub_right n
    constructor
    · intro f hf
      rw [exactAnswer?_of_value hx hm, exactAnswer?_of_value hy hn, exactAt?_congr rest]
      exact exactAt?_neg n hf
    · rw [exactAnswer?_of_value hx hm, exactAnswer?_of_value hy hn, exactAt?_congr rest,
        exactAt?_cos_neg]
  tangentPole := by
    refine ⟨apply_eq_pole_iff_exact tan x, ?_⟩
    rw [exactAnswer?_of_value hx hm, exactAnswer?_of_value hx hm]
    exact exactAt?_pole_iff m (by simp)
  cotangentPole := by
    refine ⟨apply_eq_pole_iff_exact cot x, ?_⟩
    rw [exactAnswer?_of_value hx hm, exactAnswer?_of_value hx hm]
    exact exactAt?_pole_iff m (by simp)
  tangentProduct t c s ht hc hs := by
    rw [exactAnswer?_of_value hx hm] at ht hc hs
    exact exactAt?_product m (by simp) ht hc hs
  cotangentProduct t s c ht hs hc := by
    rw [exactAnswer?_of_value hx hm] at ht hs hc
    exact exactAt?_product m (by simp) ht hs hc

/-- The sine of an angle that leaves 30 degrees and the cosine of one that leaves 60, on the other
side of zero. -/
theorem whole_angles_obey_large :
    let x : Float := 9007199254740990
    let y : Float := -36028797018963780
    let m : Int := 9007199254740990
    let n : Int := -36028797018963780
    x.isFinite = true ∧ y.isFinite = true ∧ value x = m ∧ value y = n ∧ m + n ≡ 90 [ZMOD 360] ∧
      Identities x y m n ∧ sin.exactAnswer? x = cos.exactAnswer? y ∧
      cos.exactAnswer? y = some (.value 0.5) := by
  intro x y m n
  have hx : x.isFinite = true := by decide +kernel
  have hy : y.isFinite = true := by decide +kernel
  have hm : value x = m := by decide +kernel
  have hn : value y = n := by decide +kernel
  have sum : m + n ≡ 90 [ZMOD 360] := by decide
  have obey := whole_angles_obey hx hy hm hn
  exact ⟨hx, hy, hm, hn, sum, obey, (obey.complement sum).1, by decide +kernel⟩

end TrigFunction

end Calculator

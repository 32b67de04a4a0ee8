import Calculator.NamedFunction
import Calculator.Proofs.WholeAngles

/-!
# Poles of the trigonometric functions

A pole is a property of the exact value of an angle, of any size and sign. A function of an angle is
without a value exactly at its poles, because a number with a whole value is always read as that
many degrees.
-/
namespace Calculator.TrigFunction
open Binary64

/-- The angles at which a function has no value: for the tangent a right angle and every half turn
from there, for the cotangent every half turn. -/
def HasPole : TrigFunction → Rat → Prop
  | .tan, degrees => ∃ k : Int, degrees = 90 + 180 * k
  | .cot, degrees => ∃ k : Int, degrees = 180 * k
  | .sin, _ | .cos, _ => False

theorem HasPole.whole {f : TrigFunction} {degrees : Rat} (h : f.HasPole degrees) :
    ∃ n : Int, degrees = n := by
  cases f with
  | sin | cos => exact h.elim
  | tan =>
    obtain ⟨k, rfl⟩ := h
    exact ⟨90 + 180 * k, by norm_cast⟩
  | cot =>
    obtain ⟨k, rfl⟩ := h
    exact ⟨180 * k, by norm_cast⟩

theorem tabled?_eq_pole_iff {f : TrigFunction} {degrees : Int} :
    f.tabled? degrees = some .pole ↔
      f = .tan ∧ (degrees = 90 ∨ degrees = 270) ∨ f = .cot ∧ (degrees = 0 ∨ degrees = 180) := by
  unfold tabled?
  cases f <;> dsimp only <;> split <;> simp_all

theorem exactAt?_eq_pole_iff (f : TrigFunction) (n : Int) :
    f.exactAt? n = some .pole ↔ f.HasPole n := by
  rw [exactAt?, tabled?_eq_pole_iff]
  cases f with
  | sin | cos => simp [HasPole]
  | tan =>
    simp only [HasPole, true_and, reduceCtorEq, false_and, or_false]
    constructor
    · intro rest
      exact ⟨n / 180, by norm_cast; omega⟩
    · rintro ⟨k, turn⟩
      norm_cast at turn
      omega
  | cot =>
    simp only [HasPole, true_and, reduceCtorEq, false_and, false_or]
    constructor
    · intro rest
      exact ⟨n / 180, by norm_cast; omega⟩
    · rintro ⟨k, turn⟩
      norm_cast at turn
      omega

theorem apply_eq_pole_iff_exact (f : TrigFunction) (x : Float) :
    f.apply x = .pole ↔ f.exactAnswer? x = some .pole := by
  rw [apply]
  cases f.exactAnswer? x <;> simp

theorem apply_eq_pole_iff (f : TrigFunction) (x : Float) :
    f.apply x = .pole ↔ x.isFinite = true ∧ f.HasPole (value x) := by
  rw [apply_eq_pole_iff_exact]
  constructor
  · intro exact
    obtain ⟨finite, n, whole⟩ := whole_of_exactAnswer? exact
    rw [exactAnswer?_of_value finite whole] at exact
    rw [whole]
    exact ⟨finite, (f.exactAt?_eq_pole_iff n).mp exact⟩
  · rintro ⟨finite, pole⟩
    obtain ⟨n, whole⟩ := pole.whole
    rw [whole] at pole
    rw [exactAnswer?_of_value finite whole]
    exact (f.exactAt?_eq_pole_iff n).mpr pole

end Calculator.TrigFunction

namespace Calculator.NamedFunction
open Binary64

theorem apply_eq_pole_iff (f : NamedFunction) (g : TrigFunction) (x : Float) :
    f.apply x = .error (.pole g) ↔ f = .trig g ∧ g.apply x = .pole := by
  cases f with
  | sqrt =>
    rw [apply]
    split <;> simp
  | trig f =>
    rw [apply]
    cases answer : f.apply x with
    | value y =>
      refine iff_of_false (by simp) ?_
      rintro ⟨same, pole⟩
      cases same
      rw [answer] at pole
      cases pole
    | pole =>
      simp only [Except.error.injEq, DomainFault.pole.injEq, trig.injEq]
      constructor
      · rintro rfl
        exact ⟨rfl, answer⟩
      · exact And.left

/-- The tangent has no value exactly at the finite angles a right angle from a multiple of a half
turn, and the cotangent at those multiples; sine and cosine always have one. So a function called by
name fails for want of a value exactly if it is one of the two and the angle is a pole of it,
however large the angle and however close another one to it. -/
theorem poles_are_exact :
    (∀ x, TrigFunction.tan.apply x = .pole ↔
        x.isFinite = true ∧ ∃ k : Int, value x = 90 + 180 * k) ∧
      (∀ x, TrigFunction.cot.apply x = .pole ↔
        x.isFinite = true ∧ ∃ k : Int, value x = 180 * k) ∧
      (∀ x, TrigFunction.sin.apply x ≠ .pole ∧ TrigFunction.cos.apply x ≠ .pole) ∧
      ∀ (f : NamedFunction) (g : TrigFunction) (x : Float),
        f.apply x = .error (.pole g) ↔
          f = .trig g ∧ (g = .tan ∨ g = .cot) ∧ x.isFinite = true ∧ g.HasPole (value x) := by
  refine ⟨fun x => TrigFunction.apply_eq_pole_iff .tan x,
    fun x => TrigFunction.apply_eq_pole_iff .cot x, fun x => ⟨?_, ?_⟩, fun f g x => ?_⟩
  · exact fun pole => ((TrigFunction.apply_eq_pole_iff .sin x).mp pole).2
  · exact fun pole => ((TrigFunction.apply_eq_pole_iff .cos x).mp pole).2
  · rw [apply_eq_pole_iff, TrigFunction.apply_eq_pole_iff]
    have kinds (pole : g.HasPole (value x)) : g = .tan ∨ g = .cot := by
      cases g with
      | sin | cos => exact pole.elim
      | tan => exact .inl rfl
      | cot => exact .inr rfl
    constructor
    · rintro ⟨same, finite, pole⟩
      exact ⟨same, kinds pole, finite, pole⟩
    · rintro ⟨same, -, finite, pole⟩
      exact ⟨same, finite, pole⟩

/-- A multiple of a half turn with more than twenty digits. -/
example : (NamedFunction.trig .cot).apply (-1.8e22) = .error (.pole .cot) := by decide +kernel

end Calculator.NamedFunction

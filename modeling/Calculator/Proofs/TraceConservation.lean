import Calculator.Proofs.ReductionRuns
import Calculator.Proofs.TrigonometricPoles

/-!
# Where the numbers of a reduction go

A reduction takes numbers from the tokens and makes new ones by its steps. Each of them is used up
exactly once as an operand, but for one, which is the value. All are finite, although negation is
never checked: it is only done to finite numbers. Between two tokens the same holds with all the
values that still wait in place of the one.
-/
namespace Calculator

namespace Token

def number? : Token → Option Float
  | .number x => some x
  | _ => none

def numbers (ts : List Token) : List Float := ts.filterMap number?

end Token

namespace Step
open Binary64

def operands : Step → List Float
  | .binary _ left right _ => [left, right]
  | .negation operand _ => [operand]
  | .call _ argument _ => [argument]

def Computed : Step → Prop
  | .binary o left right result => o.apply left right = .ok result
  | .negation operand result => result = -operand
  | .call f argument result => f.apply argument = .ok result

/-- The operation has a value at the operands: no division is by a zero of either sign, no root is
of a negative number, and no angle is a pole. -/
def WithinDomain : Step → Prop
  | .binary .div _ right _ => right ≠ 0 ∧ right ≠ -0
  | .call .sqrt argument _ => ¬ argument < 0
  | .call (.trig f) argument _ => ¬ f.HasPole (value argument)
  | _ => True

/-- A step is done on finite numbers, gives a finite number, and gives the right one. -/
structure Sound (s : Step) : Prop where
  operands_finite : ∀ x ∈ s.operands, x.isFinite = true
  result_finite : s.result.isFinite = true
  computed : s.Computed

end Step

/-- What a value and its steps have to do with the tokens they come from. Numbers are told apart by
their words, so a zero of one sign never stands in for the other. -/
structure Reduction.Accounts (result : Reduction) (ts : List Token) : Prop where
  numbers_finite : ∀ x ∈ Token.numbers ts, x.isFinite = true
  value_finite : result.value.isFinite = true
  steps_sound : ∀ s ∈ result.steps, s.Sound
  within_domain : ∀ s ∈ result.steps, s.WithinDomain
  conserved :
    (Token.numbers ts : Multiset Float) + (result.steps.map Step.result : Multiset Float) =
      (result.steps.flatMap Step.operands : Multiset Float) + {result.value}

theorem requireFinite_eq_ok {x y : Float} :
    requireFinite x = .ok y ↔ x.isFinite = true ∧ x = y := by
  rw [requireFinite]
  split
  · next finite => simp [finite]
  · next finite => simp [finite]

namespace Step

theorem checked_eq_ok {x : Except DomainFault Float} {make : Float → Step} {s : Step}
    (h : (x >>= fun y => requireFinite y >>= fun result => .ok (make result)) = .ok s) :
    ∃ result, x = .ok result ∧ result.isFinite = true ∧ s = make result := by
  obtain ⟨y, applied, h⟩ := bind_eq_ok.mp h
  obtain ⟨result, checked, h⟩ := bind_eq_ok.mp h
  obtain ⟨finite, rfl⟩ := requireFinite_eq_ok.mp checked
  cases h
  exact ⟨y, applied, finite, rfl⟩

theorem ofOperator_eq_ok {o : BinaryOperator} {left right : Float} {s : Step}
    (h : ofOperator o left right = .ok s) :
    ∃ result, o.apply left right = .ok result ∧ result.isFinite = true ∧
      s = .binary o left right result :=
  checked_eq_ok h

theorem ofFunction_eq_ok {f : NamedFunction} {argument : Float} {s : Step}
    (h : ofFunction f argument = .ok s) :
    ∃ result, f.apply argument = .ok result ∧ result.isFinite = true ∧
      s = .call f argument result :=
  checked_eq_ok h

/-- Dividing by a zero of either sign, a root of a negative number and a pole are faults. -/
theorem Sound.withinDomain {s : Step} (h : s.Sound) : s.WithinDomain := by
  have computed := h.computed
  cases s with
  | binary o left right result =>
    cases o with
    | div =>
      simp only [Computed, BinaryOperator.apply] at computed
      split at computed
      · cases computed
      · next nonzero =>
        constructor
        · rintro rfl
          exact nonzero (by decide)
        · rintro rfl
          exact nonzero (by decide +kernel)
    | add | sub | mul | pow => trivial
  | negation operand result => trivial
  | call f argument result =>
    cases f with
    | sqrt =>
      simp only [Computed, NamedFunction.apply] at computed
      split at computed
      · cases computed
      · next nonnegative => exact nonnegative
    | trig f =>
      intro pole
      have finite : argument.isFinite = true := h.operands_finite argument List.mem_cons_self
      have undefined := (f.apply_eq_pole_iff argument).mpr ⟨finite, pole⟩
      simp [Computed, NamedFunction.apply, undefined] at computed

end Step

namespace Work

theorem record_eq_ok {w w' : Work} {values : List Float} {x : Except DomainFault Step}
    (h : w.record values x = .ok w') :
    ∃ s, x = .ok s ∧ w' = ⟨s.result :: values, s :: w.steps⟩ := by
  cases x with
  | ok s =>
    cases h
    exact ⟨s, rfl, rfl⟩
  | error fault => cases h

/-- What performing an element does: one step takes its operands off the values and puts its result
there. The step is sound if its operands are finite. -/
theorem perform_eq_ok {w w' : Work} {p : Pending} (h : w.perform p = .ok w') :
    ∃ s values, w.values = s.operands.reverse ++ values ∧
      w' = ⟨s.result :: values, s :: w.steps⟩ ∧
      ((∀ x ∈ s.operands, x.isFinite = true) → s.Sound) := by
  obtain ⟨values, steps⟩ := w
  cases p with
  | operator o =>
    obtain _ | ⟨right, _ | ⟨left, values⟩⟩ := values
    · cases h
    · cases h
    · obtain ⟨s, made, rfl⟩ := record_eq_ok h
      obtain ⟨result, applied, finite, rfl⟩ := Step.ofOperator_eq_ok made
      exact ⟨_, values, rfl, rfl, fun operands => ⟨operands, finite, applied⟩⟩
  | negation =>
    obtain _ | ⟨operand, values⟩ := values
    · cases h
    · cases h
      refine ⟨Step.ofNegation operand, values, rfl, rfl, fun operands => ⟨operands, ?_, rfl⟩⟩
      exact Binary64.isFinite_neg (operands operand List.mem_cons_self)
  | function f =>
    obtain _ | ⟨argument, values⟩ := values
    · cases h
    · obtain ⟨s, made, rfl⟩ := record_eq_ok h
      obtain ⟨result, applied, finite, rfl⟩ := Step.ofFunction_eq_ok made
      exact ⟨_, values, rfl, rfl, fun operands => ⟨operands, finite, applied⟩⟩
  | paren => cases h

/-- What is known of the work after the given numbers are read: its steps are sound, the values left
are finite, and every number read or computed is either used up or left. -/
structure Accounts (w : Work) (numbers : Multiset Float) : Prop where
  sound : ∀ s ∈ w.steps, s.Sound
  finite : ∀ x ∈ w.values, x.isFinite = true
  conserved : numbers + (w.steps.map Step.result : Multiset Float) =
    (w.steps.flatMap Step.operands : Multiset Float) + (w.values : Multiset Float)

variable {w w' : Work} {numbers : Multiset Float}

theorem accounts_nil : Accounts ⟨[], []⟩ 0 := ⟨by simp, by simp, rfl⟩

theorem Accounts.perform {p : Pending} (hw : w.Accounts numbers) (h : w.perform p = .ok w') :
    w'.Accounts numbers := by
  obtain ⟨s, values, taken, rfl, sound⟩ := perform_eq_ok h
  have operands : ∀ x ∈ s.operands, x.isFinite = true := by
    intro x mem
    apply hw.finite
    rw [taken]
    exact List.mem_append_left values (List.mem_reverse.mpr mem)
  refine ⟨?_, ?_, ?_⟩
  · rintro s' (_ | ⟨_, earlier⟩)
    · exact sound operands
    · exact hw.sound s' earlier
  · rintro x (_ | ⟨_, left⟩)
    · exact (sound operands).result_finite
    · apply hw.finite
      rw [taken]
      exact List.mem_append_right _ left
  · have conserved := hw.conserved
    rw [taken, ← Multiset.coe_add, Multiset.coe_reverse] at conserved
    simp only [List.map_cons, List.flatMap_cons, ← Multiset.cons_coe, ← Multiset.coe_add,
      Multiset.add_cons, conserved]
    rw [add_left_comm, ← add_assoc]

theorem Accounts.settle {due : Pending → Bool} {pending rest : List Pending}
    (hw : w.Accounts numbers) (h : Work.settle due pending w = .ok (rest, w')) :
    w'.Accounts numbers := by
  induction pending generalizing w with
  | nil =>
    cases h
    exact hw
  | cons p pending ih =>
    cases hp : due p with
    | true =>
      rw [settle_cons_of_due hp] at h
      obtain ⟨between, performed, h⟩ := bind_eq_ok.mp h
      exact ih (hw.perform performed) h
    | false =>
      rw [settle_of_head_not_due (by simpa using hp)] at h
      cases h
      exact hw

theorem Accounts.push {x : Float} (hw : w.Accounts numbers) (finite : x.isFinite = true) :
    Accounts ⟨x :: w.values, w.steps⟩ (x ::ₘ numbers) := by
  refine ⟨hw.sound, ?_, ?_⟩
  · rintro y (_ | ⟨_, left⟩)
    · exact finite
    · exact hw.finite y left
  · rw [Multiset.cons_add, hw.conserved, ← Multiset.cons_coe, Multiset.add_cons]

end Work

namespace Reading

variable {r r' : Reading} {numbers : Multiset Float} {t : Token} {ts : List Token}

theorem takeNumber_eq_ok {x : Float} (h : r.takeNumber x = .ok r') :
    x.isFinite = true ∧ r' = ⟨⟨x :: r.work.values, r.work.steps⟩, r.pending, false⟩ := by
  rw [takeNumber] at h
  cases checked : requireFinite x with
  | ok y =>
    obtain ⟨finite, rfl⟩ := requireFinite_eq_ok.mp checked
    rw [checked] at h
    cases h
    exact ⟨finite, rfl⟩
  | error fault =>
    rw [checked] at h
    cases h

theorem close_eq_ok (h : r.close = .ok r') :
    ∃ rest w, Work.settle (· ≠ .paren) r.pending r.work = .ok (rest, w) ∧
      (r'.work = w ∨ ∃ f, w.perform (.function f) = .ok r'.work) := by
  rw [close] at h
  obtain ⟨⟨rest, w⟩, settled, h⟩ := bind_eq_ok.mp h
  refine ⟨rest, w, settled, ?_⟩
  split at h
  · next same =>
    cases same
    obtain ⟨w', performed, h⟩ := bind_eq_ok.mp h
    cases h
    exact .inr ⟨_, performed⟩
  · next same =>
    cases same
    cases h
    exact .inl rfl
  · cases h

theorem finish_eq_ok {result : Reduction} (h : r.finish = .ok result) :
    ∃ rest w, Work.settle (fun _ => true) r.pending r.work = .ok (rest, w) ∧
      w.values = [result.value] ∧ result.steps = w.steps.reverse := by
  rw [finish] at h
  split at h
  · cases h
  split at h
  · cases h
  obtain ⟨⟨rest, w⟩, settled, h⟩ := bind_eq_ok.mp h
  refine ⟨rest, w, settled, ?_⟩
  split at h
  · next same =>
    cases same
    cases h
    exact ⟨rfl, rfl⟩
  · cases h

theorem readOperand_eq_ok {next : Option Token} (h : r.readOperand next t = .ok r') :
    (∃ x, t = .number x ∧ r.takeNumber x = .ok r') ∨ t.number? = none ∧ r'.work = r.work := by
  cases t with
  | number x => exact .inl ⟨x, rfl, h⟩
  | leftParen =>
    cases h
    exact .inr ⟨rfl, rfl⟩
  | function name =>
    rw [readOperand] at h
    split at h
    · cases h
    split at h
    · cases h
      exact .inr ⟨rfl, rfl⟩
    · cases h
  | rightParen =>
    rw [readOperand] at h
    split at h <;> cases h
  | operator o =>
    cases o with
    | add | sub =>
      cases h
      exact .inr ⟨rfl, rfl⟩
    | mul | div | pow => cases h

theorem readOperator_accounts (hr : r.work.Accounts numbers) (h : r.readOperator t = .ok r') :
    t.number? = none ∧ r'.work.Accounts numbers := by
  cases t with
  | operator o =>
    rw [readOperator_operator] at h
    obtain ⟨left, settled, h⟩ := bind_eq_ok.mp h
    cases h
    exact ⟨rfl, hr.settle settled⟩
  | rightParen =>
    obtain ⟨rest, w, settled, done⟩ := close_eq_ok h
    refine ⟨rfl, ?_⟩
    obtain done | ⟨f, performed⟩ := done
    · rw [done]
      exact hr.settle settled
    · exact (hr.settle settled).perform performed
  | number _ | function _ | leftParen => cases h

theorem read_accounts {next : Option Token} (hr : r.work.Accounts numbers)
    (h : r.read t next = .ok r') : r'.work.Accounts (numbers + Token.numbers [t]) := by
  have none (hn : t.number? = none) : numbers + Token.numbers [t] = numbers := by
    simp [Token.numbers, hn]
  cases he : r.expectsOperand with
  | true =>
    rw [read_expecting he] at h
    obtain ⟨x, rfl, taken⟩ | ⟨hn, same⟩ := readOperand_eq_ok h
    · obtain ⟨finite, rfl⟩ := takeNumber_eq_ok taken
      rw [add_comm]
      exact hr.push finite
    · rw [none hn, same]
      exact hr
  | false =>
    rw [read_complete he] at h
    obtain ⟨hn, hr'⟩ := readOperator_accounts hr h
    rw [none hn]
    exact hr'

/-- Reading a stretch of tokens adds its numbers to those to be accounted for. -/
theorem readAll_accounts {behind : Option Token} (hr : r.work.Accounts numbers)
    (h : r.readAll behind ts = .ok r') : r'.work.Accounts (numbers + Token.numbers ts) := by
  induction ts generalizing r numbers with
  | nil =>
    cases h
    simpa [Token.numbers] using hr
  | cons t ts ih =>
    rw [readAll_cons] at h
    obtain ⟨between, now, rest⟩ := bind_eq_ok.mp h
    have later := ih (read_accounts hr now) rest
    have whole : Token.numbers (t :: ts) = Token.numbers [t] ++ Token.numbers ts :=
      List.filterMap_append (l := [t])
    rwa [whole, ← Multiset.coe_add, ← add_assoc]

end Reading

namespace Reduction

variable {result : Reduction} {ts : List Token}

/-- Numbers that are neither steps' operands nor the value would be left over. -/
theorem accounts_of_work {w : Work} (hw : w.Accounts (Token.numbers ts))
    (value : w.values = [result.value]) (steps : result.steps = w.steps.reverse) :
    result.Accounts ts := by
  have sound : ∀ s ∈ result.steps, s.Sound := by
    intro s mem
    rw [steps] at mem
    exact hw.sound s (List.mem_reverse.mp mem)
  have finite : result.value.isFinite = true := by
    apply hw.finite
    rw [value]
    exact List.mem_singleton_self _
  have results : (result.steps.map Step.result : Multiset Float) = w.steps.map Step.result := by
    rw [steps]
    exact Multiset.coe_eq_coe.mpr ((List.reverse_perm w.steps).map _)
  have operands : (result.steps.flatMap Step.operands : Multiset Float)
      = w.steps.flatMap Step.operands := by
    rw [steps]
    exact Multiset.coe_eq_coe.mpr ((List.reverse_perm w.steps).flatMap_right _)
  have conserved := hw.conserved
  rw [← results, ← operands, value, Multiset.coe_singleton] at conserved
  refine ⟨?_, finite, sound, fun s mem => (sound s mem).withinDomain, conserved⟩
  intro x mem
  have used : x ∈ (result.steps.flatMap Step.operands : Multiset Float) + {result.value} := by
    rw [← conserved]
    exact Multiset.mem_add.mpr (.inl mem)
  obtain operand | last := Multiset.mem_add.mp used
  · obtain ⟨s, step, operand⟩ := List.mem_flatMap.mp operand
    exact (sound s step).operands_finite x operand
  · rw [Multiset.mem_singleton.mp last]
    exact finite

end Reduction

theorem accounts_of_reduce {ts : List Token} {result : Reduction} (h : reduce ts = .ok result) :
    result.Accounts ts := by
  rw [reduce_eq] at h
  obtain ⟨r, read, h⟩ := bind_eq_ok.mp h
  obtain ⟨rest, w, settled, value, steps⟩ := Reading.finish_eq_ok h
  have hr : r.work.Accounts (Token.numbers ts) := by
    rw [← zero_add (Token.numbers ts : Multiset Float)]
    exact Reading.readAll_accounts Work.accounts_nil read
  exact Reduction.accounts_of_work (hr.settle settled) value steps

/-- Whatever a list of tokens is reduced to, all numbers are finite and accounted for, and each step
is the operation that it is written as, done where it has a value. So no text is evaluated to
infinity or to no number. -/
theorem reduce_accounts :
    (∀ ts result, reduce ts = .ok result → result.Accounts ts) ∧
      ∀ entry e, evaluate entry = .ok e → e.value.isFinite = true := by
  refine ⟨fun ts result h => accounts_of_reduce h, ?_⟩
  intro entry e h
  obtain ⟨-, -, -, reduced⟩ := exists_read_of_evaluate h
  exact (accounts_of_reduce reduced).value_finite

theorem reduce_accounts_quotient :
    let ts : List Token := [.number 8, .operator .div, .function "sqrt", .leftParen, .number 4,
      .rightParen, .operator .sub, .operator .sub, .function "tan", .leftParen, .number 45,
      .rightParen]
    let result : Reduction := ⟨5, [.call .sqrt 4 2, .binary .div 8 2 4, .call (.trig .tan) 45 1,
      .negation 1 (-1), .binary .sub 4 (-1) 5]⟩
    let e : Evaluation := ⟨result.value, ts, result.steps⟩
    reduce ts = .ok result ∧ result.Accounts ts ∧
      evaluate "8/sqrt(4)--tan(45)" = .ok e ∧ e.value.isFinite = true := by
  intro ts result e
  have reduced : reduce ts = .ok result := by decide +kernel
  have evaluated : evaluate "8/sqrt(4)--tan(45)" = .ok e := by decide +kernel
  obtain ⟨accounts, finite⟩ := reduce_accounts
  exact ⟨reduced, accounts ts result reduced, evaluated, finite _ e evaluated⟩

end Calculator

import Calculator.Proofs.ReductionRuns
import Mathlib.Data.List.Chain
import Mathlib.Data.List.TakeWhile

/-!
# The balance of the two stacks

Between two tokens the values are one more than the waiting operators, or as many while an operand
is expected, and a function waits only right below its parenthesis. Hence no operation ever lacks
an operand: performing and settling either succeed, or fail by an operation without a value.
-/
namespace Calculator

/-- The computation gives a result with the property, or fails by an operation without a value. -/
def Yields {α : Type} (x : Except Failure α) (P : α → Prop) : Prop :=
  (∃ a, x = .ok a ∧ P a) ∨ ∃ fault, x = .error (.domain fault)

namespace Yields

variable {α β : Type} {P : α → Prop} {Q : β → Prop}

theorem ok {a : α} (h : P a) : Yields (.ok a) P := .inl ⟨a, rfl, h⟩

theorem fault (f : DomainFault) : Yields (.error (.domain f)) P := .inr ⟨f, rfl⟩

theorem mono {Q : α → Prop} {x : Except Failure α} (hx : Yields x P) (h : ∀ a, P a → Q a) :
    Yields x Q := by
  rcases hx with ⟨a, rfl, ha⟩ | ⟨e, rfl⟩
  · exact .ok (h a ha)
  · exact .fault e

theorem bind {x : Except Failure α} {f : α → Except Failure β} (hx : Yields x P)
    (hf : ∀ a, P a → Yields (f a) Q) : Yields (x >>= f) Q := by
  rcases hx with ⟨a, rfl, ha⟩ | ⟨e, rfl⟩
  · exact hf a ha
  · exact .fault e

theorem ne_malformed {x : Except Failure α} (hx : Yields x P) : x ≠ .error .malformed := by
  rcases hx with ⟨a, rfl, -⟩ | ⟨e, rfl⟩
  · simp
  · simp

theorem of_eq_ok {x : Except Failure α} (hx : Yields x P) {a : α} (h : x = .ok a) : P a := by
  rcases hx with ⟨b, rfl, hb⟩ | ⟨e, rfl⟩
  · cases h
    exact hb
  · cases h

theorem exists_fault {x : Except Failure α} (hx : Yields x P) {failure : Failure}
    (h : x = .error failure) : ∃ fault, failure = .domain fault := by
  rcases hx with ⟨a, rfl, -⟩ | ⟨e, rfl⟩
  · cases h
  · cases h
    exact ⟨e, rfl⟩

end Yields

namespace Pending

def isOperator : Pending → Bool
  | .operator _ => true
  | _ => false

/-- A function that waits is the one called by the parenthesis on top of it. -/
def Covers (newer older : Pending) : Prop := ∀ f, older = .function f → newer = .paren

end Pending

/-- How many values the waiting elements use up beyond those they give. -/
def operators (pending : List Pending) : Nat := pending.countP Pending.isOperator

@[simp] theorem operators_nil : operators [] = 0 := rfl

@[simp] theorem operators_cons (p : Pending) (pending : List Pending) :
    operators (p :: pending) = operators pending + if p.isOperator then 1 else 0 :=
  List.countP_cons

namespace Work

theorem record_yields (w : Work) (values : List Float) (x : Except DomainFault Step) :
    Yields (w.record values x) fun w' => w'.values.length = values.length + 1 := by
  cases x with
  | ok step => exact .ok rfl
  | error f => exact .fault f

/-- An element other than a parenthesis finds its operands. -/
theorem perform_yields {p : Pending} (hp : p ≠ .paren) {pending : List Pending} {w : Work}
    (hw : w.values.length = operators (p :: pending) + 1) :
    Yields (w.perform p) fun w' => w'.values.length = operators pending + 1 := by
  rw [operators_cons] at hw
  rcases w with ⟨values, steps⟩
  cases p with
  | operator o =>
    obtain _ | ⟨right, _ | ⟨left, values⟩⟩ := values
    · simp at hw
    · simp [Pending.isOperator] at hw
    · have hlen : values.length = operators pending := by simpa [Pending.isOperator] using hw
      rw [← hlen]
      exact record_yields _ values _
  | negation =>
    obtain _ | ⟨operand, values⟩ := values
    · simp at hw
    · have hlen : values.length = operators pending := by simpa [Pending.isOperator] using hw
      rw [← hlen]
      exact record_yields _ values (.ok (Step.ofNegation operand))
  | function f =>
    obtain _ | ⟨argument, values⟩ := values
    · simp at hw
    · have hlen : values.length = operators pending := by simpa [Pending.isOperator] using hw
      rw [← hlen]
      exact record_yields _ values _
  | paren => exact absurd rfl hp

/-- Settling by a rule that stops at parentheses keeps one value more than operators. -/
theorem settle_yields {due : Pending → Bool} {pending : List Pending} {w : Work}
    (hdue : ∀ p ∈ pending, due p = true → p ≠ .paren)
    (hw : w.values.length = operators pending + 1) :
    Yields (settle due pending w) fun left =>
      left.1 = pending.dropWhile due ∧ left.2.values.length = operators left.1 + 1 := by
  induction pending generalizing w with
  | nil => exact .ok ⟨rfl, hw⟩
  | cons p pending ih =>
    cases hp : due p with
    | false =>
      rw [settle_of_head_not_due (by simpa using hp), List.dropWhile_cons_of_neg (by simp [hp])]
      exact .ok ⟨rfl, hw⟩
    | true =>
      rw [settle_cons_of_due hp, List.dropWhile_cons_of_pos hp]
      have hne : p ≠ .paren := hdue p List.mem_cons_self hp
      refine (perform_yields hne hw).bind fun w' hw' => ?_
      exact ih (fun q hq => hdue q (List.mem_cons_of_mem p hq)) hw'

end Work

section DropWhile

variable {due : Pending → Bool} {pending : List Pending}

theorem count_paren_dropWhile (hdue : due .paren = false) :
    (pending.dropWhile due).count .paren = pending.count .paren := by
  induction pending with
  | nil => rfl
  | cons p pending ih =>
    cases hp : due p with
    | false => rw [List.dropWhile_cons_of_neg (by simp [hp])]
    | true =>
      have hne : p ≠ .paren := by
        rintro rfl
        rw [hdue] at hp
        cases hp
      rw [List.dropWhile_cons_of_pos hp, ih, List.count_cons_of_ne hne]

theorem head?_dropWhile_ne_function (hdue : due .paren = false)
    (hc : pending.IsChain Pending.Covers) (hh : ∀ f, pending.head? ≠ some (.function f))
    (f : NamedFunction) : (pending.dropWhile due).head? ≠ some (.function f) := by
  induction pending with
  | nil => simp
  | cons p pending ih =>
    cases hp : due p with
    | false =>
      rw [List.dropWhile_cons_of_neg (by simp [hp])]
      exact hh f
    | true =>
      rw [List.dropWhile_cons_of_pos hp]
      refine ih hc.tail fun g hg => ?_
      obtain rfl : p = .paren := hc.rel_head? hg g rfl
      rw [hdue] at hp
      cases hp

end DropWhile

/-- The balance of a reading in front of the token `next`, if there is one. -/
structure Reading.Balanced (r : Reading) (next : Option Token) : Prop where
  values : r.work.values.length = operators r.pending + if r.expectsOperand then 0 else 1
  covered : r.pending.IsChain Pending.Covers
  newest : ∀ f, r.pending.head? = some (.function f) →
    r.expectsOperand = true ∧ next = some .leftParen

namespace Reading

variable {r : Reading}

theorem balanced_start (next : Option Token) : start.Balanced next :=
  ⟨rfl, .nil, by simp [start]⟩

theorem Balanced.head_ne_function {t : Token} (hb : r.Balanced (some t)) (ht : t ≠ .leftParen)
    (f : NamedFunction) : r.pending.head? ≠ some (.function f) :=
  fun hf => ht (Option.some.inj (hb.newest f hf).2)

theorem Balanced.complete_head_ne_function {next : Option Token} (hb : r.Balanced next)
    (he : r.expectsOperand = false) (f : NamedFunction) :
    r.pending.head? ≠ some (.function f) := by
  intro hf
  have htrue := (hb.newest f hf).1
  rw [he] at htrue
  cases htrue

theorem Balanced.await {next : Option Token} {t : Token} (hb : r.Balanced (some t))
    (he : r.expectsOperand = true) {p : Pending} (hp : p.isOperator = false)
    (hf : ∀ f, r.pending.head? = some (.function f) → p = .paren)
    (hn : ∀ f, p = .function f → next = some .leftParen) : (r.await p).Balanced next := by
  refine ⟨?_, ?_, ?_⟩
  · have hvalues := hb.values
    simp only [he, if_true, Nat.add_zero] at hvalues
    simp [Reading.await, hp, hvalues]
  · exact hb.covered.cons fun q hq f hqf => hf f (hqf ▸ hq)
  · intro f hpf
    exact ⟨rfl, hn f (by simpa [Reading.await] using hpf)⟩

theorem Balanced.takeNumber {t : Token} (hb : r.Balanced (some t)) (he : r.expectsOperand = true)
    (ht : t ≠ .leftParen) (x : Float) (next : Option Token) :
    Yields (r.takeNumber x) fun r' =>
      r'.Balanced next ∧ r'.expectsOperand = false ∧ r'.pending = r.pending := by
  rw [Reading.takeNumber]
  cases hx : requireFinite x with
  | error f => exact .fault f
  | ok y =>
    refine .ok ⟨⟨?_, hb.covered, ?_⟩, rfl, rfl⟩
    · simpa [he] using hb.values
    · exact fun f hf => absurd hf (hb.head_ne_function ht f)

theorem Balanced.settle {next : Option Token} (hb : r.Balanced next)
    (he : r.expectsOperand = false) (due : Pending → Bool) (hdue : due .paren = false)
    (behind : Option Token) :
    Yields (Work.settle due r.pending r.work) fun left =>
      left.1 = r.pending.dropWhile due ∧
        (⟨left.2, left.1, false⟩ : Reading).Balanced behind := by
  have hvalues : r.work.values.length = operators r.pending + 1 := by simpa [he] using hb.values
  have hstop (p : Pending) (_ : p ∈ r.pending) (hp : due p = true) : p ≠ .paren := by
    rintro rfl
    rw [hdue] at hp
    cases hp
  refine (Work.settle_yields hstop hvalues).mono ?_
  rintro ⟨rest, w⟩ ⟨rfl, hlen⟩
  refine ⟨rfl, hlen, hb.covered.suffix (List.dropWhile_suffix due), fun f hf => ?_⟩
  exact absurd hf
    (head?_dropWhile_ne_function hdue hb.covered (hb.complete_head_ne_function he) f)

/-- Settling everything leaves one value, where no parenthesis is open. -/
theorem Balanced.settle_all {next : Option Token} (hb : r.Balanced next)
    (he : r.expectsOperand = false) (hp : r.pending.contains .paren = false) :
    Yields (Work.settle (fun _ => true) r.pending r.work) fun left =>
      left.1 = [] ∧ ∃ value, left.2.values = [value] := by
  have hvalues : r.work.values.length = operators r.pending + 1 := by simpa [he] using hb.values
  have hnone (p : Pending) (hmem : p ∈ r.pending) (_ : true = true) : p ≠ .paren := by
    rintro rfl
    simp [hmem] at hp
  refine (Work.settle_yields hnone hvalues).mono ?_
  rintro left ⟨hrest, hlen⟩
  have hempty : left.1 = [] := by
    rw [hrest, List.dropWhile_eq_nil_iff]
    exact fun _ _ => rfl
  rw [hempty] at hlen
  exact ⟨hempty, List.length_eq_one_iff.mp hlen⟩

theorem Balanced.push_operator {next : Option Token} {w : Work} {pending : List Pending}
    (hb : (⟨w, pending, false⟩ : Reading).Balanced next) (o : BinaryOperator)
    (behind : Option Token) :
    (⟨w, .operator o :: pending, true⟩ : Reading).Balanced behind := by
  refine ⟨?_, ?_, by simp⟩
  · simpa [Pending.isOperator] using hb.values
  · exact hb.covered.cons fun q hq f hqf =>
      absurd (hqf ▸ hq) (hb.complete_head_ne_function rfl f)

/-- Behind a closed group, its parenthesis and a function called by it are gone. -/
theorem Balanced.close_paren {next : Option Token} {w : Work} {pending : List Pending}
    (hb : (⟨w, .paren :: pending, false⟩ : Reading).Balanced next) (behind : Option Token) :
    Yields (Reading.close ⟨w, .paren :: pending, false⟩) fun r' =>
      r'.Balanced behind ∧ r'.expectsOperand = false ∧
        r'.pending.count .paren = pending.count .paren := by
  have hvalues : w.values.length = operators pending + 1 := by
    simpa [Pending.isOperator] using hb.values
  have hcovered : pending.IsChain Pending.Covers := hb.covered.tail
  by_cases hf : ∃ f, pending.head? = some (.function f)
  · obtain ⟨f, hf⟩ := hf
    obtain ⟨rest, rfl⟩ : ∃ rest, pending = .function f :: rest := List.head?_eq_some_iff.mp hf
    have hne (g : NamedFunction) : rest.head? ≠ some (.function g) := by
      intro hg
      cases hcovered.rel_head? hg g rfl
    rw [close_call]
    refine (Work.perform_yields (by simp) hvalues).bind fun w' hw' => .ok ⟨?_, rfl, ?_⟩
    · exact ⟨hw', hcovered.tail, fun g hg => absurd hg (hne g)⟩
    · simp
  · have hne (f : NamedFunction) : pending.head? ≠ some (.function f) := fun h => hf ⟨f, h⟩
    rw [close_group hne]
    exact .ok ⟨⟨hvalues, hcovered, fun f h => absurd h (hne f)⟩, rfl, rfl⟩

end Reading

end Calculator

import Calculator.Proofs.StackOrder

/-!
# What a reduction performs

Every element that a reduction comes to perform, whether that succeeds or not, finds its operands
and is no parenthesis. So the only way in which performing one ends a reduction is an operation
without a value, and at the end there is never more or less than one value.
-/
namespace Calculator

def Pending.arity : Pending → Nat
  | .operator _ => 2
  | .negation | .function _ => 1
  | .paren => 0

/-- An element together with the work it is to be performed on. -/
structure Performance where
  element : Pending
  work : Work
  deriving DecidableEq

namespace Performance

def outcome (p : Performance) : Except Failure Work := p.work.perform p.element

structure Supplied (p : Performance) : Prop where
  notParen : p.element ≠ .paren
  operands : p.element.arity ≤ p.work.values.length

/-- Nothing but an operation without a value is then in the way. -/
theorem Supplied.yields {p : Performance} (h : p.Supplied) : Yields p.outcome fun _ => True := by
  obtain ⟨element, values, steps⟩ := p
  have operands := h.operands
  cases element with
  | operator o =>
    obtain _ | ⟨right, _ | ⟨left, values⟩⟩ := values
    · simp [Pending.arity] at operands
    · simp [Pending.arity] at operands
    · exact (Work.record_yields _ values _).mono fun _ _ => trivial
  | negation =>
    obtain _ | ⟨operand, values⟩ := values
    · simp [Pending.arity] at operands
    · exact .ok trivial
  | function f =>
    obtain _ | ⟨argument, values⟩ := values
    · simp [Pending.arity] at operands
    · exact (Work.record_yields _ values _).mono fun _ _ => trivial
  | paren => exact absurd rfl h.notParen

def behind {α : Type} (x : Except Failure α) (next : α → List Performance) : List Performance :=
  match x with
  | .ok a => next a
  | .error _ => []

end Performance

/-- What settling performs, in order, up to the first failure. -/
def Work.performances (due : Pending → Bool) : List Pending → Work → List Performance
  | [], _ => []
  | p :: pending, w =>
    if due p then ⟨p, w⟩ :: Performance.behind (w.perform p) (Work.performances due pending)
    else []

namespace Reading

def called : List Pending × Work → List Performance
  | (.paren :: .function f :: _, w) => [⟨.function f, w⟩]
  | _ => []

def operatorPerformances (r : Reading) : Token → List Performance
  | .operator o => Work.performances (Pending.goesBefore o) r.pending r.work
  | .rightParen =>
    Work.performances (· ≠ .paren) r.pending r.work
      ++ Performance.behind (Work.settle (· ≠ .paren) r.pending r.work) called
  | _ => []

/-- What is performed in reading a token; where an operand must start, nothing is. -/
def performances (r : Reading) (t : Token) : List Performance :=
  if r.expectsOperand then [] else r.operatorPerformances t

def lastPerformances (r : Reading) : List Performance :=
  if r.pending.contains .paren ∨ r.expectsOperand then []
  else Work.performances (fun _ => true) r.pending r.work

def allPerformances (r : Reading) : List Token → List Performance
  | [] => r.lastPerformances
  | t :: ts =>
    r.performances t ++ Performance.behind (r.read t ts.head?) fun r' => r'.allPerformances ts

end Reading

def performances (ts : List Token) : List Performance := Reading.start.allPerformances ts

/-- The computation performs just these elements: each is supplied, the first that fails ends the
computation with its failure, and a result has one step more for each of them. No operation but
these lacks a value, where `refused` are the faults of the numbers that are read. -/
structure Performs (refused : DomainFault → Prop) {α : Type} (x : Except Failure α)
    (ps : List Performance) (before : Nat) (steps : α → Nat) : Prop where
  supplied : ∀ p ∈ ps, p.Supplied
  fails : ∀ p ∈ ps, ∀ e, p.outcome = .error e → x = .error e
  caused : ∀ fault, x = .error (.domain fault) →
    (∃ p ∈ ps, p.outcome = .error (.domain fault)) ∨ refused fault
  recorded : ∀ a, x = .ok a → steps a = before + ps.length

namespace Performs

variable {refused : DomainFault → Prop} {α β : Type} {x : Except Failure α}
  {f : α → Except Failure β} {ps : List Performance} {before : Nat} {steps : α → Nat}
  {steps' : β → Nat}

theorem nothing (same : ∀ a, x = .ok a → steps a = before)
    (number : ∀ fault, x = .error (.domain fault) → refused fault) :
    Performs refused x [] before steps :=
  ⟨by simp, by simp, fun fault failed => .inr (number fault failed), same⟩

theorem ok {a : α} (same : steps a = before) : Performs refused (.ok a) [] before steps := by
  refine nothing (fun b result => ?_) fun fault failed => by cases failed
  cases result
  exact same

theorem error {failure : Failure} (h : ∀ fault, failure ≠ .domain fault) :
    Performs refused (.error failure : Except Failure α) [] before steps := by
  refine nothing (fun a result => by cases result) fun fault failed => ?_
  exact absurd (Except.error.inj failed) (h fault)

theorem bind {qs : α → List Performance} (hx : Performs refused x ps before steps)
    (hf : ∀ a, x = .ok a → Performs refused (f a) (qs a) (steps a) steps') :
    Performs refused (x >>= f) (ps ++ Performance.behind x qs) before steps' := by
  cases x with
  | error failure =>
    rw [error_bind, Performance.behind, List.append_nil]
    refine ⟨hx.supplied, ?_, ?_, fun b none => by cases none⟩
    · intro p mem e failed
      cases hx.fails p mem e failed
      rfl
    · intro fault failed
      cases failed
      exact hx.caused fault rfl
  | ok a =>
    have rest := hf a rfl
    rw [ok_bind, Performance.behind]
    refine ⟨?_, ?_, ?_, ?_⟩
    · intro p mem
      obtain first | later := List.mem_append.mp mem
      · exact hx.supplied p first
      · exact rest.supplied p later
    · intro p mem e failed
      obtain first | later := List.mem_append.mp mem
      · cases hx.fails p first e failed
      · exact rest.fails p later e failed
    · intro fault failed
      obtain ⟨p, mem, cause⟩ | number := rest.caused fault failed
      · exact .inl ⟨p, List.mem_append_right ps mem, cause⟩
      · exact .inr number
    · intro b result
      rw [rest.recorded b result, hx.recorded a rfl, List.length_append, Nat.add_assoc]

theorem map (hx : Performs refused x ps before steps)
    (hf : ∀ a, x = .ok a → Performs refused (f a) [] (steps a) steps') :
    Performs refused (x >>= f) ps before steps' := by
  have whole := hx.bind hf
  cases x with
  | error e => simpa [Performance.behind] using whole
  | ok a => simpa [Performance.behind] using whole

end Performs

namespace Work

variable {refused : DomainFault → Prop}

theorem performs_perform {p : Pending} {w : Work} (h : Performance.Supplied ⟨p, w⟩) :
    Performs refused (w.perform p) [⟨p, w⟩] w.steps.length (·.steps.length) where
  supplied := by simpa using h
  fails := by simp [Performance.outcome]
  caused fault failed := .inl ⟨⟨p, w⟩, List.mem_singleton_self _, failed⟩
  recorded _ performed := length_steps_perform performed

/-- Where there is a value more than operators, an element is supplied. -/
theorem supplied_of_length {p : Pending} (ne : p ≠ .paren) {pending : List Pending} {w : Work}
    (hw : w.values.length = operators (p :: pending) + 1) : Performance.Supplied ⟨p, w⟩ := by
  refine ⟨ne, ?_⟩
  rw [operators_cons] at hw
  cases p with
  | operator o => simp [Pending.arity, hw, Pending.isOperator]
  | negation | function f => simp [Pending.arity, hw]
  | paren => exact absurd rfl ne

theorem performs_settle {due : Pending → Bool} {pending : List Pending} {w : Work}
    (hdue : ∀ p ∈ pending, due p = true → p ≠ .paren)
    (hw : w.values.length = operators pending + 1) :
    Performs refused (settle due pending w) (performances due pending w) w.steps.length
      (·.2.steps.length) := by
  induction pending generalizing w with
  | nil => exact .ok rfl
  | cons p pending ih =>
    cases hp : due p with
    | false =>
      rw [settle_of_head_not_due (by simpa using hp), performances, hp]
      exact .ok rfl
    | true =>
      have ne : p ≠ .paren := hdue p List.mem_cons_self hp
      rw [settle_cons_of_due hp, performances, if_pos hp]
      refine (performs_perform (supplied_of_length ne hw)).bind fun w' performed => ?_
      have length := (perform_yields ne hw).of_eq_ok performed
      exact ih (fun q mem => hdue q (List.mem_cons_of_mem p mem)) length

end Work

namespace Reading

variable {refused : DomainFault → Prop} {r : Reading}

theorem Balanced.performs_settle {next : Option Token} (hb : r.Balanced next)
    (he : r.expectsOperand = false) (due : Pending → Bool)
    (hdue : .paren ∈ r.pending → due .paren = false) :
    Performs refused (Work.settle due r.pending r.work) (Work.performances due r.pending r.work)
      r.work.steps.length (·.2.steps.length) := by
  apply Work.performs_settle
  · rintro p mem hp rfl
    rw [hdue mem] at hp
    cases hp
  · simpa [he] using hb.values

/-- Closing a group at its parenthesis performs the function that it is the argument of. -/
theorem Balanced.performs_close {next : Option Token} {w : Work} {pending : List Pending}
    (hb : (⟨w, .paren :: pending, false⟩ : Reading).Balanced next) :
    Performs refused (close ⟨w, .paren :: pending, false⟩) (called (.paren :: pending, w))
      w.steps.length (·.work.steps.length) := by
  by_cases hf : ∃ f, pending.head? = some (.function f)
  · obtain ⟨f, hf⟩ := hf
    obtain ⟨rest, rfl⟩ : ∃ rest, pending = .function f :: rest := List.head?_eq_some_iff.mp hf
    have values : w.values.length = operators (.function f :: rest) + 1 := by
      simpa [Pending.isOperator] using hb.values
    rw [close_call]
    exact (Work.performs_perform (Work.supplied_of_length (by simp) values)).map fun _ _ => .ok rfl
  · have ne (f : NamedFunction) : pending.head? ≠ some (.function f) := fun h => hf ⟨f, h⟩
    have none : called (.paren :: pending, w) = [] := by
      obtain _ | ⟨p, rest⟩ := pending
      · rfl
      · cases p with
        | function f => exact absurd rfl (ne f)
        | operator _ | negation | paren => rfl
    rw [close_group ne, none]
    exact .ok rfl

theorem Balanced.performs_readOperator {t : Token} (hb : r.Balanced (some t))
    (he : r.expectsOperand = false) :
    Performs refused (r.readOperator t) (r.operatorPerformances t) r.work.steps.length
      (·.work.steps.length) := by
  cases t with
  | operator o =>
    rw [readOperator_operator]
    exact (hb.performs_settle he (Pending.goesBefore o) fun _ => rfl).map fun _ _ => .ok rfl
  | rightParen =>
    rw [readOperator, close_eq_settle]
    refine (hb.performs_settle he (· ≠ .paren) (by simp)).bind ?_
    rintro ⟨rest, w⟩ settled
    obtain ⟨-, hb'⟩ := (hb.settle he (· ≠ .paren) (by simp) none).of_eq_ok settled
    obtain _ | ⟨p, rest⟩ := rest
    · exact .error (by simp)
    · obtain rfl : p = .paren := by simpa using Work.settle_head_not_due settled p rfl
      exact hb'.performs_close
  | number _ | function _ | leftParen => exact .error (by simp)

/-- Where an operand must start, only a number can be without a value. -/
theorem readOperand_eq_domain {t : Token} {next : Option Token} {fault : DomainFault}
    (h : r.readOperand next t = .error (.domain fault)) :
    ∃ x, t = .number x ∧ requireFinite x = .error fault := by
  cases t with
  | number x =>
    rw [readOperand, takeNumber] at h
    split at h
    · cases h
    · next refusal =>
      cases h
      exact ⟨x, rfl, refusal⟩
  | leftParen => cases h
  | function name =>
    rw [readOperand] at h
    split at h
    · cases h
    · split at h <;> cases h
  | rightParen =>
    rw [readOperand] at h
    split at h <;> cases h
  | operator o => cases o <;> cases h

theorem Balanced.performs_read {t : Token} (hb : r.Balanced (some t)) (next : Option Token)
    (number : ∀ x fault, t = .number x → requireFinite x = .error fault → refused fault) :
    Performs refused (r.read t next) (r.performances t) r.work.steps.length
      (·.work.steps.length) := by
  cases he : r.expectsOperand with
  | true =>
    rw [performances, if_pos he]
    refine .nothing (fun r' read => ?_) fun fault failed => ?_
    · cases becomes_of_read read with
      | number | leftParen | function | plus | minus => rfl
      | operator he' | group he' | call he' =>
        rw [he] at he'
        cases he'
    · rw [read_expecting he] at failed
      obtain ⟨x, same, refusal⟩ := readOperand_eq_domain failed
      exact number x fault same refusal
  | false =>
    rw [performances, if_neg (by simp [he]), read_complete he]
    exact hb.performs_readOperator he

theorem Balanced.performs_finish {next : Option Token} (hb : r.Balanced next) :
    Performs refused r.finish r.lastPerformances r.work.steps.length (·.steps.length) := by
  by_cases hopen : r.pending.contains .paren = true
  · rw [finish, lastPerformances, if_pos hopen, if_pos (.inl hopen)]
    exact .error (by simp)
  · by_cases he : r.expectsOperand = true
    · rw [finish, lastPerformances, if_neg hopen, if_pos he, if_pos (.inr he)]
      exact .error (by simp)
    · rw [Bool.not_eq_true] at he
      have settling : Performs refused _ _ _ _ := hb.performs_settle he (fun _ => true) fun mem =>
        absurd (List.contains_iff_mem.mpr mem) hopen
      rw [Bool.not_eq_true] at hopen
      rw [finish_eq_settle hopen he, lastPerformances, if_neg (by rw [hopen, he]; decide)]
      refine settling.map fun left settled => ?_
      obtain ⟨-, value, single⟩ := (hb.settle_all he hopen).of_eq_ok settled
      obtain ⟨rest, values, steps⟩ := left
      obtain rfl : values = [value] := single
      exact .ok List.length_reverse

/-- Reading tokens to the end performs what is listed, from any balanced point on. -/
theorem Balanced.performs_all {ts : List Token} (hb : r.Balanced ts.head?)
    (number : ∀ x fault, .number x ∈ ts → requireFinite x = .error fault → refused fault) :
    Performs refused (r.readAll none ts >>= finish) (r.allPerformances ts) r.work.steps.length
      (·.steps.length) := by
  induction ts generalizing r with
  | nil => exact hb.performs_finish
  | cons t ts ih =>
    have first (x : Float) (fault : DomainFault) (ht : t = .number x) :
        requireFinite x = .error fault → refused fault := by
      subst ht
      exact number x fault List.mem_cons_self
    have later (x : Float) (fault : DomainFault) (mem : .number x ∈ ts) :
        requireFinite x = .error fault → refused fault :=
      number x fault (List.mem_cons_of_mem t mem)
    rw [readAll_cons, Option.or_none, bind_assoc]
    exact (hb.performs_read ts.head? first).bind fun r' read => ih (Balanced.read hb read) later

end Reading

theorem performs_reduce (ts : List Token) :
    Performs (fun fault => ∃ x, .number x ∈ ts ∧ requireFinite x = .error fault) (reduce ts)
      (performances ts) 0 (·.steps.length) :=
  (Reading.balanced_start ts.head?).performs_all fun x _ mem refusal => ⟨x, mem, refusal⟩

/-- Between any two tokens of a reduction the stacks are in order. Whatever it comes to perform, on
any list of tokens and however it ends, is no parenthesis and finds its operands; so it fails only
by an operation without a value, which then is the failure of the reduction, and otherwise it is
recorded as one of the steps. A reduction that fails so has performed such an operation, or a number
of it is refused. When all that waits is performed at the end, one value is left. -/
theorem reduction_stays_in_order :
    (∀ (read rest : List Token) (r : Reading),
      Reading.start.readAll rest.head? read = .ok r → r.Ordered read rest) ∧
    (∀ (ts : List Token), ∀ p ∈ performances ts,
      p.element ≠ .paren ∧ p.element.arity ≤ p.work.values.length ∧
        ∀ e, p.outcome = .error e → (∃ fault, e = .domain fault) ∧ reduce ts = .error e) ∧
    (∀ ts result, reduce ts = .ok result → result.steps.length = (performances ts).length) ∧
    (∀ ts fault, reduce ts = .error (.domain fault) →
      (∃ p ∈ performances ts, p.outcome = .error (.domain fault)) ∨
        ∃ x, .number x ∈ ts ∧ requireFinite x = .error fault) ∧
    ∀ (ts : List Token) (r : Reading), Reading.start.readAll none ts = .ok r →
      r.pending.contains .paren = false → r.expectsOperand = false →
      ∀ left, Work.settle (fun _ => true) r.pending r.work = .ok left →
        left.1 = [] ∧ ∃ value, left.2.values = [value] := by
  refine ⟨fun read rest r h => (Reading.inOrder_of_readAll h).ordered, ?_, ?_, ?_, ?_⟩
  · intro ts p mem
    have supplied := (performs_reduce ts).supplied p mem
    refine ⟨supplied.notParen, supplied.operands, fun e failed => ⟨?_, ?_⟩⟩
    · exact supplied.yields.exists_fault failed
    · exact (performs_reduce ts).fails p mem e failed
  · intro ts result h
    rw [(performs_reduce ts).recorded result h, Nat.zero_add]
  · intro ts
    exact (performs_reduce ts).caused
  · intro ts r h closed complete left settled
    have hb := (Reading.balanced_start ts.head?).readAll h
    exact (hb.settle_all complete closed).of_eq_ok settled

/-- In `2+3*-sqrt(16)` three operators and a sign wait on two values when the function is to be
given its argument; in `(1/0)+2` the quotient is the only thing that is performed. -/
theorem reduction_stays_in_order_root :
    let read : List Token :=
      [.number 2, .operator .add, .number 3, .operator .mul, .operator .sub, .function "sqrt"]
    let rest : List Token := [.leftParen, .number 16, .rightParen]
    let midway : Reading :=
      ⟨⟨[3, 2], []⟩, [.function .sqrt, .negation, .operator .mul, .operator .add], true⟩
    let last : Reading := ⟨⟨[4, 3, 2], [.call .sqrt 16 4]⟩, midway.pending.tail, false⟩
    let result : Reduction := ⟨-10, [.call .sqrt 16 4, .negation 4 (-4), .binary .mul 3 (-4) (-12),
      .binary .add 2 (-12) (-10)]⟩
    let failing : List Token := [.leftParen, .number 1, .operator .div, .number 0, .rightParen,
      .operator .add, .number 2]
    let quotient : Performance := ⟨.operator .div, ⟨[0, 1], []⟩⟩
    midway.Ordered read rest ∧ reduce (read ++ rest) = .ok result ∧
      result.steps.length = (performances (read ++ rest)).length ∧
      Reading.start.readAll none (read ++ rest) = .ok last ∧
      (∃ value, (⟨[-10], result.steps.reverse⟩ : Work).values = [value]) ∧
      performances failing = [quotient] ∧ reduce failing = .error (.domain .divisionByZero) ∧
      quotient.element.arity ≤ quotient.work.values.length := by
  intro read rest midway last result failing quotient
  have reached : Reading.start.readAll rest.head? read = .ok midway := by decide +kernel
  have reduced : reduce (read ++ rest) = .ok result := by decide +kernel
  have whole : Reading.start.readAll none (read ++ rest) = .ok last := by decide +kernel
  have settled : Work.settle (fun _ => true) last.pending last.work =
      .ok ([], ⟨[-10], result.steps.reverse⟩) := by decide +kernel
  have listed : performances failing = [quotient] := by decide +kernel
  have undefined : quotient.outcome = .error (.domain .divisionByZero) := by decide +kernel
  obtain ⟨ordered, performed, recorded, -, single⟩ := reduction_stays_in_order
  obtain ⟨-, operands, ends⟩ := performed failing quotient (by rw [listed]; simp)
  refine ⟨ordered read rest midway reached, reduced, recorded _ result reduced, whole, ?_, listed,
    (ends _ undefined).2, operands⟩
  exact (single (read ++ rest) last whole (by decide) rfl _ settled).2

end Calculator

import Calculator.Proofs.GroupedReduction
import Calculator.Proofs.TraceConservation

/-!
# The order of what waits

Between two tokens, what waits on a group is in layers: at the bottom at most one sum, on it at most
one product, and on them powers and signs. Whatever calls for an operation waits until it is
recorded as a step, so steps and waiting elements together are as many as the tokens that call for
one. All this is kept by reading a token, however many elements that performs.
-/
namespace Calculator

namespace Token

def endsOperand : Token → Bool
  | .number _ | .rightParen => true
  | _ => false

/-- The token calls for an operation: a function does, an operator behind an operand, and in front
of an operand a minus sign, but not a plus sign. -/
def isOperation (previous : Option Token) : Token → Bool
  | .function _ => true
  | .operator o => previous.any endsOperand || o = .sub
  | _ => false

/-- How many tokens call for an operation, where `previous` stands in front of them. -/
def operations (previous : Option Token) : List Token → Nat
  | [] => 0
  | t :: ts => (if t.isOperation previous then 1 else 0) + operations (some t) ts

theorem operations_concat (previous : Option Token) (ts : List Token) (t : Token) :
    operations previous (ts ++ [t]) =
      operations previous ts + if t.isOperation (ts.getLast?.or previous) then 1 else 0 := by
  induction ts generalizing previous with
  | nil => exact Nat.add_comm _ 0
  | cons first ts ih =>
    have last : (first :: ts).getLast?.or previous = ts.getLast?.or (some first) := by
      cases h : ts.getLast? <;> simp [List.getLast?_cons, h]
    rw [List.cons_append, operations, operations, ih, last, Nat.add_assoc]

end Token

namespace Pending

/-- What may wait directly on top of an element that binds: only what binds more closely, but for
powers and signs, which also wait on each other. -/
def Tops (newer older : Pending) : Prop :=
  ∀ low ∈ older.precedence?, ∀ high ∈ newer.precedence?,
    low < high ∨ high = BinaryOperator.pow.precedence

/-- Newest first: powers and signs, then at most one product or quotient, then at most one sum or
difference. -/
def Layered (stretch : List Pending) : Prop :=
  ∃ powers products sums, stretch = powers ++ products ++ sums ∧
    (∀ p ∈ powers, p = .operator .pow ∨ p = .negation) ∧
    (products.length ≤ 1 ∧ ∀ p ∈ products, p.precedence? = some 2) ∧
    (sums.length ≤ 1 ∧ ∀ p ∈ sums, p.precedence? = some 1)

theorem precedence?_of_power {p : Pending} (h : p = .operator .pow ∨ p = .negation) :
    p.precedence? = some 3 := by
  obtain rfl | rfl := h <;> rfl

theorem precedence?_cases {p : Pending} (binds : p.precedence? ≠ none) :
    (p = .operator .pow ∨ p = .negation) ∨ p.precedence? = some 2 ∨ p.precedence? = some 1 := by
  cases p with
  | operator o => cases o <;> simp [precedence?, BinaryOperator.precedence]
  | negation => simp
  | function f => exact absurd rfl binds
  | paren => exact absurd rfl binds

/-- On top of an element that binds as closely there is nothing but powers and signs. -/
theorem not_tops {newer older : Pending} {high low : Nat} (hn : newer.precedence? = some high)
    (ho : older.precedence? = some low) (le : high ≤ low) (other : high ≠ 3) :
    ¬ newer.Tops older := by
  intro tops
  obtain lt | power := tops low ho high hn
  · exact Nat.not_lt_of_le le lt
  · exact other power

theorem layer_eq_nil {p : Pending} {layer below : List Pending} {high level : Nat}
    (chain : (p :: (layer ++ below)).IsChain Tops) (hp : p.precedence? = some high)
    (other : high ≠ 3) (hl : ∀ q ∈ layer, q.precedence? = some level) (le : high ≤ level) :
    layer = [] := by
  cases layer with
  | nil => rfl
  | cons q layer =>
    exact absurd (chain.rel_head? rfl) (not_tops hp (hl q List.mem_cons_self) le other)

/-- Elements that bind, each on top of one that it may top, are in layers. -/
theorem layered_of_isChain {stretch : List Pending} (chain : stretch.IsChain Tops)
    (binds : ∀ p ∈ stretch, p.precedence? ≠ none) : Layered stretch := by
  induction stretch with
  | nil => exact ⟨[], [], [], by simp⟩
  | cons p older ih =>
    obtain ⟨powers, products, sums, rfl, hpowers, hproducts, hsums⟩ :=
      ih chain.tail fun q mem => binds q (List.mem_cons_of_mem p mem)
    have high : ∀ q ∈ powers, q.precedence? = some 3 :=
      fun q mem => precedence?_of_power (hpowers q mem)
    rw [List.append_assoc] at chain
    obtain power | product | sum := precedence?_cases (binds p List.mem_cons_self)
    · refine ⟨p :: powers, products, sums, rfl, ?_, hproducts, hsums⟩
      exact List.forall_mem_cons.mpr ⟨power, hpowers⟩
    · obtain rfl : powers = [] := layer_eq_nil chain product (by decide) high (by decide)
      obtain rfl : products = [] :=
        layer_eq_nil chain product (by decide) hproducts.2 (by decide)
      exact ⟨[], [p], sums, rfl, hpowers, by simpa using product, hsums⟩
    · obtain rfl : powers = [] := layer_eq_nil chain sum (by decide) high (by decide)
      obtain rfl : products = [] := layer_eq_nil chain sum (by decide) hproducts.2 (by decide)
      have lowest : (p :: (sums ++ [])).IsChain Tops := by simpa using chain
      obtain rfl : sums = [] := layer_eq_nil lowest sum (by decide) hsums.2 (by decide)
      exact ⟨[], [], [p], rfl, hpowers, hproducts, by simpa using sum⟩

end Pending

def waiting (pending : List Pending) : Nat := pending.countP (· ≠ .paren)

@[simp] theorem waiting_paren (pending : List Pending) :
    waiting (.paren :: pending) = waiting pending := by
  simp [waiting]

theorem waiting_cons {p : Pending} (h : p ≠ .paren) (pending : List Pending) :
    waiting (p :: pending) = waiting pending + 1 := by
  simp [waiting, h]

namespace Work

variable {due : Pending → Bool} {w w' : Work}

theorem length_steps_perform {p : Pending} (h : w.perform p = .ok w') :
    w'.steps.length = w.steps.length + 1 := by
  obtain ⟨s, values, -, rfl, -⟩ := perform_eq_ok h
  rfl

theorem length_steps_settle (hdue : due .paren = false) {pending rest : List Pending}
    (h : settle due pending w = .ok (rest, w')) :
    w'.steps.length + waiting rest = w.steps.length + waiting pending := by
  induction pending generalizing w with
  | nil =>
    cases h
    rfl
  | cons p pending ih =>
    cases hp : due p with
    | true =>
      rw [settle_cons_of_due hp] at h
      obtain ⟨between, performed, h⟩ := bind_eq_ok.mp h
      have ne : p ≠ .paren := by
        rintro rfl
        rw [hdue] at hp
        cases hp
      rw [ih h, length_steps_perform performed, waiting_cons ne]
      omega
    | false =>
      rw [settle_of_head_not_due (by simpa using hp)] at h
      cases h
      rfl

end Work

namespace Reading

variable {r r' : Reading} {t : Token} {next : Option Token}

/-- All that may come of reading a token. -/
inductive Becomes (r : Reading) (next : Option Token) : Token → Reading → Prop
  | number (he : r.expectsOperand = true) (x : Float) :
      Becomes r next (.number x) ⟨⟨x :: r.work.values, r.work.steps⟩, r.pending, false⟩
  | leftParen (he : r.expectsOperand = true) : Becomes r next .leftParen (r.await .paren)
  | function (he : r.expectsOperand = true) (f : NamedFunction) (opens : next = some .leftParen) :
      Becomes r next (.function f.name) (r.await (.function f))
  | plus (he : r.expectsOperand = true) : Becomes r next (.operator .add) r
  | minus (he : r.expectsOperand = true) : Becomes r next (.operator .sub) (r.await .negation)
  | operator (he : r.expectsOperand = false) (o : BinaryOperator) {rest : List Pending} {w : Work}
      (h : Work.settle (Pending.goesBefore o) r.pending r.work = .ok (rest, w)) :
      Becomes r next (.operator o) ⟨w, .operator o :: rest, true⟩
  | group (he : r.expectsOperand = false) {rest : List Pending} {w : Work}
      (h : Work.settle (· ≠ .paren) r.pending r.work = .ok (.paren :: rest, w)) :
      Becomes r next .rightParen ⟨w, rest, false⟩
  | call (he : r.expectsOperand = false) (f : NamedFunction) {rest : List Pending} {w w' : Work}
      (h : Work.settle (· ≠ .paren) r.pending r.work = .ok (.paren :: .function f :: rest, w))
      (performed : w.perform (.function f) = .ok w') :
      Becomes r next .rightParen ⟨w', rest, false⟩

theorem becomes_of_read (h : r.read t next = .ok r') : r.Becomes next t r' := by
  cases he : r.expectsOperand with
  | true =>
    rw [read_expecting he] at h
    cases t with
    | number x =>
      obtain ⟨-, rfl⟩ := takeNumber_eq_ok h
      exact .number he x
    | leftParen =>
      cases h
      exact .leftParen he
    | function name =>
      rw [readOperand] at h
      split at h
      · cases h
      · next f known =>
        split at h
        · next opens =>
          cases h
          rw [← NamedFunction.name_of_ofName? known]
          exact .function he f opens
        · cases h
    | rightParen =>
      rw [readOperand] at h
      split at h <;> cases h
    | operator o =>
      cases o with
      | add =>
        cases h
        exact .plus he
      | sub =>
        cases h
        exact .minus he
      | mul | div | pow => cases h
  | false =>
    rw [read_complete he] at h
    cases t with
    | operator o =>
      rw [readOperator_operator] at h
      obtain ⟨left, settled, h⟩ := bind_eq_ok.mp h
      cases h
      exact .operator he o settled
    | rightParen =>
      rw [readOperator, close] at h
      obtain ⟨left, settled, h⟩ := bind_eq_ok.mp h
      split at h
      · obtain ⟨w, performed, h⟩ := bind_eq_ok.mp h
        cases h
        exact .call he _ settled performed
      · cases h
        exact .group he settled
      · cases h
    | number _ | function _ | leftParen => cases h

namespace Becomes

theorem expectsOperand (h : r.Becomes next t r') : r'.expectsOperand = !t.endsOperand := by
  cases h with
  | plus he => exact he
  | number | leftParen | function | minus | operator | group | call => rfl

/-- Where an operand is complete, what waits on its group stays in order when some of it is
settled. -/
theorem tops_settle {due : Pending → Bool} {rest : List Pending} {w : Work}
    (h : r.pending.IsChain Pending.Tops)
    (settled : Work.settle due r.pending r.work = .ok (rest, w)) : rest.IsChain Pending.Tops := by
  rw [Work.settle_rest settled]
  exact h.suffix (List.dropWhile_suffix due)

/-- An operator waits on what it leaves waiting: that binds less closely, unless it is a power. -/
theorem tops_operator {o : BinaryOperator} {p : Pending} (left : p.goesBefore o = false) :
    (Pending.operator o).Tops p := by
  intro low hp high ho
  obtain rfl : o.precedence = high := Option.some.inj ho
  have binds : p.precedence? = some low := hp
  cases o with
  | pow => exact .inr rfl
  | add | sub | mul | div =>
    left
    simpa [Pending.goesBefore, binds, BinaryOperator.groupsRight] using left

theorem tops (h : r.Becomes next t r') (hr : r.pending.IsChain Pending.Tops) :
    r'.pending.IsChain Pending.Tops := by
  cases h with
  | number | plus => exact hr
  | leftParen | function => exact hr.cons fun p _ low _ high none => by cases none
  | minus => exact hr.cons fun p _ low _ high power => .inr (Option.some.inj power).symm
  | operator he o settled =>
    refine (tops_settle hr settled).cons fun p first => tops_operator ?_
    exact Work.settle_head_not_due settled p first
  | group he settled => exact (tops_settle hr settled).tail
  | call he f settled performed => exact (tops_settle hr settled).tail.tail

theorem counted (h : r.Becomes next t r') {previous : Option Token}
    (he : r.expectsOperand = !previous.any Token.endsOperand) :
    r'.work.steps.length + waiting r'.pending =
      r.work.steps.length + waiting r.pending + if t.isOperation previous then 1 else 0 := by
  cases h with
  | number => rfl
  | leftParen => exact congrArg (r.work.steps.length + ·) (waiting_paren r.pending)
  | function he' f => exact congrArg (r.work.steps.length + ·) (waiting_cons (by simp) r.pending)
  | plus he' =>
    have sign : previous.any Token.endsOperand = false := by simpa [he'] using he.symm
    simp [Token.isOperation, sign]
  | minus he' =>
    have sign : Pending.negation ≠ .paren := by simp
    have calls : Token.isOperation previous (.operator .sub) = true := by simp [Token.isOperation]
    rw [if_pos calls]
    exact congrArg (r.work.steps.length + ·) (waiting_cons sign r.pending)
  | operator he' o settled =>
    have behind : previous.any Token.endsOperand = true := by simpa [he'] using he.symm
    have steps := Work.length_steps_settle rfl settled
    simp only [Token.isOperation, behind, Bool.true_or, if_true]
    rw [waiting_cons (by simp), ← Nat.add_assoc, steps]
  | group he' settled =>
    have steps := Work.length_steps_settle (by simp) settled
    rw [waiting_paren] at steps
    exact steps
  | call he' f settled performed =>
    have steps := Work.length_steps_settle (by simp) settled
    rw [waiting_paren, waiting_cons (by simp)] at steps
    simp only [Work.length_steps_perform performed, Token.isOperation, Bool.false_eq_true, if_false]
    omega

theorem newest (h : r.Becomes next t r') (hr : r.Balanced (some t)) (hr' : r'.Balanced next)
    {f : NamedFunction} (first : r'.pending.head? = some (.function f)) :
    t = .function f.name := by
  cases h with
  | number | group | call => exact absurd first (hr'.complete_head_ne_function rfl f)
  | plus => exact absurd first (hr.head_ne_function (by simp) f)
  | leftParen | minus | operator => cases first
  | function =>
    cases first
    rfl

end Becomes

/-- What is kept between two tokens, with some of them `read` and the `rest` to come. -/
structure InOrder (r : Reading) (read rest : List Token) : Prop where
  balanced : r.Balanced rest.head?
  expects : r.expectsOperand = !read.getLast?.any Token.endsOperand
  newest : ∀ f, r.pending.head? = some (.function f) → read.getLast? = some (.function f.name)
  tops : r.pending.IsChain Pending.Tops
  counted : r.work.steps.length + waiting r.pending = Token.operations none read

theorem inOrder_start (rest : List Token) : start.InOrder [] rest :=
  ⟨balanced_start rest.head?, rfl, by simp [start], .nil, rfl⟩

theorem InOrder.read {read rest : List Token} (hr : r.InOrder read (t :: rest))
    (h : r.read t rest.head? = .ok r') : r'.InOrder (read ++ [t]) rest := by
  have becomes := becomes_of_read h
  have balanced := hr.balanced.read h
  refine ⟨balanced, ?_, ?_, becomes.tops hr.tops, ?_⟩
  · rw [List.getLast?_concat, becomes.expectsOperand]
    rfl
  · intro f first
    rw [List.getLast?_concat, becomes.newest hr.balanced balanced first]
  · rw [becomes.counted hr.expects, hr.counted, Token.operations_concat, Option.or_none]

theorem inOrder_of_readAll {read rest : List Token}
    (h : start.readAll rest.head? read = .ok r) : r.InOrder read rest := by
  induction read using List.reverseRecOn generalizing r rest with
  | nil =>
    cases h
    exact inOrder_start rest
  | append_singleton read t ih =>
    rw [readAll_append] at h
    obtain ⟨before, earlier, h⟩ := bind_eq_ok.mp h
    obtain ⟨after, now, h⟩ := bind_eq_ok.mp h
    cases h
    have hbefore : before.InOrder read (t :: rest) := ih earlier
    exact hbefore.read now

/-- The stacks between two tokens, with some tokens `read` and the `rest` to come. -/
structure Ordered (r : Reading) (read rest : List Token) : Prop where
  /-- The values are one more than the waiting operators, or as many while an operand is expected. -/
  values : r.work.values.length = operators r.pending + if r.expectsOperand then 0 else 1
  /-- Directly on top of a function is its parenthesis, unless the function was just read and the
  parenthesis is next. -/
  functions : ∀ above f below, r.pending = above ++ .function f :: below →
    above.getLast? = some .paren ∨
      above = [] ∧ read.getLast? = some (.function f.name) ∧ rest.head? = some .leftParen
  /-- What waits between two elements that bound a group is in layers. -/
  layers : ∀ stretch, stretch <:+: r.pending → (∀ p ∈ stretch, p.precedence? ≠ none) →
    Pending.Layered stretch
  /-- Steps and what waits are as many as the tokens that call for an operation. -/
  counted : r.work.steps.length + waiting r.pending = Token.operations none read

theorem InOrder.ordered {read rest : List Token} (hr : r.InOrder read rest) :
    r.Ordered read rest where
  values := hr.balanced.values
  functions above f below split := by
    cases above using List.reverseRecOn with
    | nil =>
      have first : r.pending.head? = some (.function f) := by rw [split]; rfl
      exact .inr ⟨rfl, hr.newest f first, (hr.balanced.newest f first).2⟩
    | append_singleton above p =>
      have covered : (above ++ p :: .function f :: below).IsChain Pending.Covers := by
        have whole := hr.balanced.covered
        rwa [split, List.append_assoc] at whole
      have top : p = .paren := covered.right_of_append.rel_head? rfl f rfl
      exact .inl (by rw [List.getLast?_concat, top])
  layers stretch inside binds := by
    have chain := List.IsChain.infix hr.tops inside
    exact Pending.layered_of_isChain chain binds
  counted := hr.counted

end Reading

end Calculator

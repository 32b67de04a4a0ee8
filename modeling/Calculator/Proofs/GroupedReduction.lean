import Calculator.Proofs.StructuralClassification

/-!
# Reducing inside a group

A stretch of tokens in parentheses is reduced as it would be on its own: what waits below the
parenthesis and the values there are never touched. So its reading inside is its reading alone, put
on top of what is outside, up to the closing parenthesis, which does what the end of a text does.
Only a parenthesis without its partner tells the two apart, as inside it finds one outside.
-/
namespace Calculator

namespace Work

def above (w base : Work) : Work := ⟨w.values ++ base.values, w.steps ++ base.steps⟩

variable {w base : Work}

theorem record_above (values : List Float) (x : Except DomainFault Step) :
    (w.above base).record (values ++ base.values) x
      = w.record values x >>= fun w' => .ok (w'.above base) := by
  cases x <;> rfl

/-- An element that finds its operands is performed on them alone. -/
theorem perform_above {p : Pending} (h : w.perform p ≠ .error .malformed) :
    (w.above base).perform p = w.perform p >>= fun w' => .ok (w'.above base) := by
  obtain ⟨values, steps⟩ := w
  cases p with
  | operator o =>
    obtain _ | ⟨right, _ | ⟨left, values⟩⟩ := values
    · exact absurd rfl h
    · exact absurd rfl h
    · exact record_above values _
  | negation =>
    obtain _ | ⟨operand, values⟩ := values
    · exact absurd rfl h
    · rfl
  | function f =>
    obtain _ | ⟨argument, values⟩ := values
    · exact absurd rfl h
    · exact record_above values _
  | paren => rfl

theorem settle_above {due : Pending → Bool} {pending below : List Pending}
    (h : settle due pending w ≠ .error .malformed) (stop : ∀ p ∈ below.head?, due p = false) :
    settle due (pending ++ below) (w.above base)
      = settle due pending w >>= fun left => .ok (left.1 ++ below, left.2.above base) := by
  induction pending generalizing w with
  | nil => exact settle_of_head_not_due stop _
  | cons p pending ih =>
    rw [List.cons_append]
    cases hp : due p with
    | false =>
      rw [settle_of_head_not_due (by simpa using hp), settle_of_head_not_due (by simpa using hp)]
      rfl
    | true =>
      rw [settle_cons_of_due hp] at h
      have performed : w.perform p ≠ .error .malformed := by
        intro lacks
        rw [lacks] at h
        exact h rfl
      rw [settle_cons_of_due hp, settle_cons_of_due hp, perform_above performed, bind_assoc,
        bind_assoc]
      refine bind_congr_of_ok fun w' hw' => ?_
      rw [hw'] at h
      exact ih h

end Work

namespace Reading

/-- A reading inside a group, with what was there before it was opened. -/
def within (r : Reading) (base : Work) (outer : List Pending) : Reading :=
  ⟨r.work.above base, r.pending ++ .paren :: outer, r.expectsOperand⟩

/-- The second computation does inside a group what the first does alone, unless that finds a
parenthesis without its partner. -/
def Alike (base : Work) (outer : List Pending) (alone inside : Except Failure Reading) : Prop :=
  alone = .error .unbalanced ∨ inside = alone >>= fun r => .ok (r.within base outer)

variable {r : Reading} {base : Work} {outer : List Pending}

theorem readOperand_within (t : Token) {next next' : Option Token}
    (same : next = some .leftParen ↔ next' = some .leftParen) :
    Alike base outer (r.readOperand next t) ((r.within base outer).readOperand next' t) := by
  cases t with
  | number x =>
    refine .inr ?_
    rw [readOperand, readOperand, takeNumber, takeNumber]
    cases requireFinite x <;> rfl
  | leftParen => exact .inr rfl
  | function name =>
    refine .inr ?_
    rw [readOperand, readOperand]
    cases NamedFunction.ofName? name with
    | none => rfl
    | some f =>
      dsimp only
      by_cases paren : next = some .leftParen
      · rw [if_pos paren, if_pos (same.mp paren)]
        rfl
      · rw [if_neg paren, if_neg (mt same.mpr paren)]
        rfl
  | rightParen =>
    rw [readOperand, readOperand]
    cases found : r.pending.contains .paren with
    | true => exact .inr (by simp [within])
    | false => exact .inl rfl
  | operator o =>
    refine .inr ?_
    cases o <;> rfl

theorem close_paren_within {w : Work} {pending : List Pending} {next : Option Token}
    (hb : (⟨w, .paren :: pending, false⟩ : Reading).Balanced next) :
    close (within ⟨w, .paren :: pending, false⟩ base outer)
      = close ⟨w, .paren :: pending, false⟩ >>= fun r => .ok (r.within base outer) := by
  have defined := (hb.close_paren none).ne_malformed
  show close ⟨w.above base, .paren :: (pending ++ .paren :: outer), false⟩ = _
  by_cases call : ∃ f, pending.head? = some (.function f)
  · obtain ⟨f, head⟩ := call
    obtain ⟨rest, rfl⟩ := List.head?_eq_some_iff.mp head
    have performed : w.perform (.function f) ≠ .error .malformed := by
      intro lacks
      rw [close_call, lacks] at defined
      exact defined rfl
    rw [List.cons_append, close_call, close_call, Work.perform_above performed, bind_assoc,
      bind_assoc]
    rfl
  · have head : ∀ f, pending.head? ≠ some (.function f) := fun f h => call ⟨f, h⟩
    have head' : ∀ f, (pending ++ .paren :: outer).head? ≠ some (.function f) := by
      cases pending with
      | nil => simp
      | cons p pending => exact head
    rw [close_group head, close_group head']
    rfl

theorem close_within {next : Option Token} (hb : r.Balanced next) (he : r.expectsOperand = false) :
    Alike base outer r.close (r.within base outer).close := by
  have settles := hb.settle he (· ≠ .paren) (by simp) none
  rw [close_eq_settle, close_eq_settle (r.within base outer), within,
    Work.settle_above settles.ne_malformed (by simp), bind_assoc]
  obtain ⟨⟨rest, w⟩, settled, -, hb'⟩ | ⟨fault, faults⟩ := settles
  · rw [settled, ok_bind, ok_bind, ok_bind]
    cases rest with
    | nil => exact .inl rfl
    | cons p rest =>
      obtain rfl : p = .paren := by simpa using Work.settle_head_not_due settled p rfl
      exact .inr (close_paren_within hb')
  · rw [faults]
    exact .inr rfl

theorem readOperator_within {next : Option Token} (hb : r.Balanced next)
    (he : r.expectsOperand = false) (t : Token) :
    Alike base outer (r.readOperator t) ((r.within base outer).readOperator t) := by
  cases t with
  | operator o =>
    refine .inr ?_
    have settled := (hb.settle he (Pending.goesBefore o) rfl none).ne_malformed
    rw [readOperator_operator, readOperator_operator, within, Work.settle_above settled (by simp),
      bind_assoc, bind_assoc]
    rfl
  | rightParen => exact close_within hb he
  | number _ | function _ | leftParen => exact .inr rfl

/-- One token is read alike alone and inside a group. -/
theorem read_within (base : Work) (outer : List Pending) {t : Token} {next next' : Option Token}
    (hb : r.Balanced (some t))
    (same : next = some .leftParen ↔ next' = some .leftParen) :
    Alike base outer (r.read t next) ((r.within base outer).read t next') := by
  cases he : r.expectsOperand with
  | true =>
    rw [read_expecting he, read_expecting (r := r.within base outer) he]
    exact readOperand_within t same
  | false =>
    rw [read_complete he, read_complete (r := r.within base outer) he]
    exact readOperator_within hb he t

theorem Balanced.read {r' : Reading} {t : Token} {ts : List Token} (hb : r.Balanced (some t))
    (h : r.read t ts.head? = .ok r') : r'.Balanced ts.head? := by
  have follows : Follows r t ts (.ok r') := h ▸ read_follows hb
  cases follows with
  | continues hb' => exact hb'

theorem Balanced.readAll {r' : Reading} {ts : List Token} (hb : r.Balanced ts.head?)
    (h : r.readAll none ts = .ok r') : r'.Balanced none := by
  induction ts generalizing r with
  | nil =>
    cases h
    exact hb
  | cons t ts ih =>
    rw [readAll_cons, Option.or_none] at h
    obtain ⟨between, now, rest⟩ := bind_eq_ok.mp h
    exact ih (hb.read now) rest

/-- So is a stretch of tokens, as long as no parenthesis stands behind that a name at its end might
be called by. -/
theorem readAll_within (base : Work) (outer : List Pending) {ts : List Token}
    {behind : Option Token} (hb : r.Balanced ts.head?) (notOpened : behind ≠ some .leftParen) :
    Alike base outer (r.readAll none ts) ((r.within base outer).readAll behind ts) := by
  induction ts generalizing r with
  | nil => exact .inr rfl
  | cons t ts ih =>
    have same : ts.head? = some .leftParen ↔ ts.head?.or behind = some .leftParen := by
      cases ts <;> simp [notOpened]
    rw [readAll_cons, readAll_cons, Option.or_none]
    obtain unbalanced | inside := read_within base outer hb same
    · rw [unbalanced]
      exact .inl rfl
    rw [inside]
    cases now : r.read t ts.head? with
    | error e => exact .inr rfl
    | ok r' => exact ih (hb.read now)

/-- A closing parenthesis does inside what the end of the tokens does alone. -/
theorem finish_within (base : Work) (outer : List Pending) (hb : r.Balanced none)
    (behind : Option Token) :
    r.finish = .error .unbalanced ∨
      (r.within base outer).read .rightParen behind = r.finish >>= fun result =>
        close ⟨⟨result.value :: base.values, result.steps.reverse ++ base.steps⟩,
          .paren :: outer, false⟩ := by
  cases hp : r.pending.contains .paren with
  | true =>
    refine .inl ?_
    rw [finish, hp, if_pos rfl]
  | false =>
    refine .inr ?_
    cases he : r.expectsOperand with
    | true =>
      rw [finish, hp, he, read_expecting (r := r.within base outer) he, readOperand]
      simp [within]
    | false =>
      have allDue : ∀ p ∈ r.pending, true = decide (p ≠ .paren) := by
        intro p mem
        rw [eq_comm, decide_eq_true_eq]
        rintro rfl
        rw [List.contains_iff_mem.mpr mem] at hp
        cases hp
      have settles := hb.settle_all he hp
      rw [Work.settle_congr allDue] at settles
      rw [read_complete (r := r.within base outer) he, readOperator, close_eq_settle, within,
        Work.settle_above settles.ne_malformed (by simp), finish_eq_settle hp he,
        Work.settle_congr allDue, bind_assoc, bind_assoc]
      obtain ⟨⟨rest, values, steps⟩, settled, rfl, value, rfl⟩ | ⟨fault, faults⟩ := settles
      · rw [settled]
        simp [finish, Work.above]
      · rw [faults]
        rfl

end Reading

def Token.grouped (ts : List Token) : List Token := .leftParen :: (ts ++ [.rightParen])

/-- A group is reduced to its value in one go, wherever it stands. -/
theorem readAll_enclosed (ts : List Token) (w : Work) (outer : List Pending)
    (behind : Option Token) :
    reduce ts = .error .unbalanced ∨
      (⟨w, .paren :: outer, true⟩ : Reading).readAll behind (ts ++ [.rightParen])
        = reduce ts >>= fun result => Reading.close ⟨⟨result.value :: w.values,
          result.steps.reverse ++ w.steps⟩, .paren :: outer, false⟩ := by
  have hb : Reading.start.Balanced ts.head? := Reading.balanced_start ts.head?
  have opened : Reading.start.within w outer = ⟨w, .paren :: outer, true⟩ := rfl
  have alike := Reading.readAll_within w outer hb (show some Token.rightParen ≠ _ by simp)
  rw [opened] at alike
  rw [reduce_eq, Reading.readAll_append, bind_assoc]
  obtain unbalanced | inside := alike
  · rw [unbalanced]
    exact .inl rfl
  rw [List.head?_cons, Option.some_or, inside, bind_assoc]
  cases read : Reading.start.readAll none ts with
  | error e => exact .inr rfl
  | ok r =>
    simp only [ok_bind, Reading.readAll_cons, Reading.readAll_nil, List.head?_nil, Option.none_or]
    obtain unbalanced | closed := Reading.finish_within w outer (hb.readAll read) behind
    · exact .inl unbalanced
    · exact .inr ((bind_pure _).trans closed)

section Values

variable {ts : List Token} {a : Reduction}

/-- Behind a group that has a value, the value stands there and its steps are done. -/
theorem readAll_enclosed_append (ha : reduce ts = .ok a) (w : Work) (outer : List Pending)
    (behind : Option Token) (us : List Token) :
    (⟨w, .paren :: outer, true⟩ : Reading).readAll behind (ts ++ .rightParen :: us)
      = Reading.close ⟨⟨a.value :: w.values, a.steps.reverse ++ w.steps⟩, .paren :: outer, false⟩
        >>= fun r => r.readAll behind us := by
  obtain unbalanced | closed := readAll_enclosed ts w outer (us.head?.or behind)
  · rw [ha] at unbalanced
    cases unbalanced
  · rw [ha, ok_bind] at closed
    rw [List.append_cons, Reading.readAll_append, closed]

theorem readAll_grouped (ha : reduce ts = .ok a) (w : Work) (outer : List Pending)
    (bare : ∀ f, outer.head? ≠ some (.function f)) (behind : Option Token) (us : List Token) :
    (⟨w, outer, true⟩ : Reading).readAll behind (Token.grouped ts ++ us)
      = (⟨⟨a.value :: w.values, a.steps.reverse ++ w.steps⟩, outer, false⟩ : Reading).readAll
        behind us := by
  rw [Token.grouped, List.cons_append, Reading.readAll_cons, List.append_assoc]
  show (⟨w, .paren :: outer, true⟩ : Reading).readAll behind (ts ++ .rightParen :: us) = _
  rw [readAll_enclosed_append ha, Reading.close_group bare, ok_bind]

theorem readAll_called (ha : reduce ts = .ok a) (w : Work) (outer : List Pending)
    (f : NamedFunction) (behind : Option Token) (us : List Token) :
    (⟨w, outer, true⟩ : Reading).readAll behind (.function f.name :: (Token.grouped ts ++ us))
      = Work.record ⟨w.values, a.steps.reverse ++ w.steps⟩ w.values (Step.ofFunction f a.value)
        >>= fun w' => (⟨w', outer, false⟩ : Reading).readAll behind us := by
  have called : (⟨w, outer, true⟩ : Reading).read (.function f.name)
      ((Token.grouped ts ++ us).head?.or behind) = .ok ⟨w, .function f :: outer, true⟩ := by
    simp [Reading.read, Reading.readOperand, Reading.await, Token.grouped]
  rw [Reading.readAll_cons, called, ok_bind, Token.grouped, List.cons_append, Reading.readAll_cons,
    List.append_assoc]
  show (⟨w, .paren :: .function f :: outer, true⟩ : Reading).readAll behind
    (ts ++ .rightParen :: us) = _
  rw [readAll_enclosed_append ha, Reading.close_call, bind_assoc]
  rfl

end Values

def Reduction.endingWith (steps : List Step) : Except DomainFault Step → Except Failure Reduction
  | .ok step => .ok ⟨step.result, steps ++ [step]⟩
  | .error fault => .error (.domain fault)

section Compounds

variable {ts us : List Token} {a b : Reduction}

theorem record_finish (values : List Float) (steps : List Step) (last : Except DomainFault Step) :
    (Work.record ⟨values, steps.reverse⟩ [] last >>= fun w => Reading.finish ⟨w, [], false⟩)
      = Reduction.endingWith steps last := by
  cases last with
  | ok step => simp [Work.record, Reading.finish, Reduction.endingWith]
  | error fault => rfl

theorem finish_last {p : Pending} (hp : p ≠ .paren) (w : Work) :
    Reading.finish ⟨w, [p], false⟩ = w.perform p >>= fun w' => Reading.finish ⟨w', [], false⟩ := by
  have closed : [p].contains .paren = false := by simpa using hp.symm
  rw [Reading.finish_eq_settle closed rfl, Work.settle_cons_of_due rfl, bind_assoc]
  rfl

theorem reduce_joined (ha : reduce ts = .ok a) (hb : reduce us = .ok b) (o : BinaryOperator) :
    reduce (Token.grouped ts ++ .operator o :: Token.grouped us)
      = Reduction.endingWith (a.steps ++ b.steps) (Step.ofOperator o a.value b.value) := by
  have left := readAll_grouped ha ⟨[], []⟩ [] (by simp) none (.operator o :: Token.grouped us)
  have sign (next : Option Token) :
      (⟨⟨[a.value], a.steps.reverse⟩, [], false⟩ : Reading).read (.operator o) next
        = .ok ⟨⟨[a.value], a.steps.reverse⟩, [.operator o], true⟩ := rfl
  have right := readAll_grouped hb ⟨[a.value], a.steps.reverse⟩ [.operator o] (by simp) none []
  have last := record_finish [b.value, a.value] (a.steps ++ b.steps)
    (Step.ofOperator o a.value b.value)
  simp only [List.append_nil, List.reverse_append] at left right last
  rw [reduce_eq, Reading.start, left, Reading.readAll_cons, sign, ok_bind, right,
    Reading.readAll_nil, ok_bind, finish_last (by simp)]
  exact last

theorem reduce_called (ha : reduce ts = .ok a) (f : NamedFunction) :
    reduce (.function f.name :: Token.grouped ts)
      = Reduction.endingWith a.steps (Step.ofFunction f a.value) := by
  have called := readAll_called ha ⟨[], []⟩ [] f none []
  rw [List.append_nil] at called
  rw [reduce_eq, Reading.start, called, List.append_nil, bind_assoc]
  exact record_finish [] a.steps _

theorem reduce_negated (ha : reduce ts = .ok a) :
    reduce (.operator .sub :: Token.grouped ts)
      = Reduction.endingWith a.steps (.ok (Step.ofNegation a.value)) := by
  have group := readAll_grouped ha ⟨[], []⟩ [.negation] (by simp) none []
  have sign (next : Option Token) : Reading.start.read (.operator .sub) next
      = .ok ⟨⟨[], []⟩, [.negation], true⟩ := rfl
  rw [List.append_nil, List.append_nil] at group
  rw [reduce_eq, Reading.readAll_cons, sign, ok_bind, group, Reading.readAll_nil, ok_bind,
    finish_last (by simp)]
  exact record_finish [a.value] a.steps (.ok (Step.ofNegation a.value))

end Compounds

end Calculator

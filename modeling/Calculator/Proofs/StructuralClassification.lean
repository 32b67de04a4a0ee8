import Calculator.StructuralFault
import Calculator.Proofs.StackBalance

/-!
# Structural faults of the reduction

The reduction finds structural faults by looking through what waits and by taking it away. The
stacks are balanced between any two tokens, so this finds the same fault as counting open
parentheses does: at each token both go on, or both refuse it for the same reason, unless an
operation without a value ends the reduction first.
-/
namespace Calculator

namespace Reading

def opened (r : Reading) : Nat := r.pending.count .paren

/-- What may come of reading `t` in front of `ts`, beside what counting parentheses says. -/
inductive Follows (r : Reading) (t : Token) (ts : List Token) : Except Failure Reading → Prop
  | faults (fault : DomainFault) : Follows r t ts (.error (.domain fault))
  | refuses {failure : Failure}
      (h : structuralFault? r.expectsOperand r.opened (t :: ts) = some failure) :
      Follows r t ts (.error failure)
  | continues {r' : Reading} (hb : r'.Balanced ts.head?)
      (h : structuralFault? r.expectsOperand r.opened (t :: ts) =
        structuralFault? r'.expectsOperand r'.opened ts) :
      Follows r t ts (.ok r')

/-- What may come of a reduction, beside the fault found by counting parentheses. -/
inductive Agrees : Option Failure → Except Failure Reduction → Prop
  | faults (found : Option Failure) (fault : DomainFault) : Agrees found (.error (.domain fault))
  | refuses (failure : Failure) : Agrees (some failure) (.error failure)
  | succeeds (result : Reduction) : Agrees none (.ok result)

theorem Follows.of_yields {r : Reading} {t : Token} {ts : List Token} {x : Except Failure Reading}
    {P : Reading → Prop} (hx : Yields x P)
    (hP : ∀ r', P r' → r'.Balanced ts.head? ∧
      structuralFault? r.expectsOperand r.opened (t :: ts) =
        structuralFault? r'.expectsOperand r'.opened ts) : Follows r t ts x := by
  rcases hx with ⟨r', rfl, h⟩ | ⟨fault, rfl⟩
  · exact .continues (hP r' h).1 (hP r' h).2
  · exact .faults fault

variable {r : Reading} {ts : List Token}

theorem opened_pos_iff : r.pending.contains .paren = true ↔ 0 < r.opened := by
  rw [opened, List.count_pos_iff, List.contains_iff_mem]

theorem readOperand_follows {t : Token} (hb : r.Balanced (some t))
    (he : r.expectsOperand = true) : Follows r t ts (r.readOperand ts.head? t) := by
  cases t with
  | number x =>
    refine .of_yields (hb.takeNumber he (by simp) x ts.head?) ?_
    rintro r' ⟨hb', he', hp⟩
    exact ⟨hb', by simp [structuralFault?, he, he', opened, hp]⟩
  | leftParen =>
    refine .continues (hb.await he rfl (by simp) (by simp)) ?_
    simp [structuralFault?, he, opened, await]
  | function name =>
    rw [readOperand]
    cases hname : NamedFunction.ofName? name with
    | none => exact .refuses (by simp [structuralFault?, he, hname])
    | some f =>
      by_cases hnext : ts.head? = some .leftParen
      · dsimp only
        rw [if_pos hnext]
        have hnone (g : NamedFunction) (hg : r.pending.head? = some (.function g)) :
            Pending.function f = .paren := absurd hg (hb.head_ne_function (by simp) g)
        refine .continues (hb.await he rfl hnone fun _ _ => hnext) ?_
        simp [structuralFault?, he, hname, hnext, opened, await]
      · dsimp only
        rw [if_neg hnext]
        exact .refuses (by simp [structuralFault?, he, hname, hnext])
  | rightParen =>
    rw [readOperand]
    by_cases hopened : 0 < r.opened
    · rw [if_pos (opened_pos_iff.mpr hopened)]
      exact .refuses (by simp [structuralFault?, he, Nat.ne_of_gt hopened])
    · rw [if_neg (mt opened_pos_iff.mp hopened)]
      exact .refuses (by simp [structuralFault?, Nat.eq_zero_of_not_pos hopened])
  | operator o =>
    have hnone := hb.head_ne_function (by simp)
    cases o with
    | add =>
      refine .continues ⟨hb.values, hb.covered, fun f hf => absurd hf (hnone f)⟩ ?_
      simp [structuralFault?, he]
    | sub =>
      refine .continues (hb.await he rfl (fun f hf => absurd hf (hnone f)) (by simp)) ?_
      simp [structuralFault?, he, opened, await]
    | mul | div | pow => exact .refuses (by simp [structuralFault?, he])

theorem close_follows (hb : r.Balanced (some .rightParen)) (he : r.expectsOperand = false) :
    Follows r .rightParen ts r.close := by
  rw [close_eq_settle]
  rcases hb.settle he (· ≠ .paren) (by simp) ts.head? with ⟨⟨rest, w⟩, hs, hrest, hb'⟩ | ⟨fault, hs⟩
  · rw [hs, ok_bind]
    dsimp only at hrest hb' ⊢
    have hcount : rest.count .paren = r.opened := by
      rw [hrest]
      exact count_paren_dropWhile (by simp)
    cases rest with
    | nil => exact .refuses (by simp [structuralFault?, ← hcount])
    | cons p rest =>
      obtain rfl : p = .paren := by simpa using Work.settle_head_not_due hs p rfl
      have hopen : r.opened = rest.count .paren + 1 := by simpa using hcount.symm
      refine .of_yields (hb'.close_paren ts.head?) ?_
      rintro r' ⟨hr', he', hp⟩
      have hclosed : r'.opened = rest.count .paren := hp
      exact ⟨hr', by simp [structuralFault?, he, he', hopen, hclosed]⟩
  · rw [hs]
    exact .faults fault

theorem readOperator_follows {t : Token} (hb : r.Balanced (some t))
    (he : r.expectsOperand = false) : Follows r t ts (r.readOperator t) := by
  cases t with
  | operator o =>
    rw [readOperator_operator]
    rcases hb.settle he (Pending.goesBefore o) rfl ts.head? with
      ⟨⟨rest, w⟩, hs, hrest, hb'⟩ | ⟨fault, hs⟩
    · rw [hs, ok_bind]
      dsimp only at hrest hb' ⊢
      have hcount : rest.count .paren = r.opened := by
        rw [hrest]
        exact count_paren_dropWhile rfl
      refine .continues (hb'.push_operator o ts.head?) ?_
      have hsame : (⟨w, .operator o :: rest, true⟩ : Reading).opened = r.opened := by
        rw [← hcount, opened, List.count_cons_of_ne (by simp)]
      simp [structuralFault?, he, hsame]
    · rw [hs]
      exact .faults fault
  | rightParen => exact close_follows hb he
  | number _ | function _ | leftParen => exact .refuses (by simp [structuralFault?, he])

theorem read_follows {t : Token} (hb : r.Balanced (some t)) :
    Follows r t ts (r.read t ts.head?) := by
  cases he : r.expectsOperand with
  | true =>
    rw [read_expecting he]
    exact readOperand_follows hb he
  | false =>
    rw [read_complete he]
    exact readOperator_follows hb he

/-- At the end an open parenthesis counts before a missing operand; else one value is left. -/
theorem finish_agrees (hb : r.Balanced none) :
    Agrees (structuralFault? r.expectsOperand r.opened []) r.finish := by
  by_cases hopened : 0 < r.opened
  · have hp : r.pending.contains .paren = true := opened_pos_iff.mpr hopened
    rw [structuralFault?, if_pos hopened, finish, if_pos hp]
    exact .refuses .unbalanced
  · have hp : r.pending.contains .paren = false := by simpa using mt opened_pos_iff.mp hopened
    rw [structuralFault?, if_neg hopened]
    cases he : r.expectsOperand with
    | true =>
      rw [finish, hp, he]
      exact .refuses .malformed
    | false =>
      rw [finish_eq_settle hp he]
      rcases hb.settle_all he hp with ⟨⟨rest, values, steps⟩, hs, -, value, rfl⟩ | ⟨fault, hs⟩
      · rw [hs]
        exact .succeeds ⟨value, steps.reverse⟩
      · rw [hs]
        exact .faults _ fault

/-- A run agrees with counting from any balanced point on. -/
theorem readAll_agrees (hb : r.Balanced ts.head?) :
    Agrees (structuralFault? r.expectsOperand r.opened ts) (r.readAll none ts >>= finish) := by
  induction ts generalizing r with
  | nil => exact finish_agrees hb
  | cons t ts ih =>
    rw [readAll_cons, Option.or_none, bind_assoc]
    cases hread : r.read t ts.head? with
    | error e =>
      have hfollows : Follows r t ts (.error e) := hread ▸ read_follows hb
      cases hfollows with
      | faults fault => exact .faults _ fault
      | refuses h =>
        rw [h]
        exact .refuses e
    | ok r' =>
      have hfollows : Follows r t ts (.ok r') := hread ▸ read_follows hb
      cases hfollows with
      | continues hb' h =>
        rw [h]
        exact ih hb'

end Reading

theorem reduce_agrees (ts : List Token) : Reading.Agrees (structuralFault? true 0 ts) (reduce ts) :=
  Reading.readAll_agrees (Reading.balanced_start ts.head?)

theorem structuralFault?_of_reduce {ts : List Token} {result : Reduction}
    (h : reduce ts = .ok result) : structuralFault? true 0 ts = none := by
  have hagrees := reduce_agrees ts
  rw [h] at hagrees
  cases hs : structuralFault? true 0 ts with
  | none => rfl
  | some failure =>
    rw [hs] at hagrees
    cases hagrees

/-- Unless an operation without a value ends it, a reduction succeeds exactly on the lists without
a structural fault, and fails exactly with the first structural fault of the others. -/
theorem reduce_classifies {ts : List Token}
    (h : ∀ fault, reduce ts ≠ .error (.domain fault)) :
    ((∃ result, reduce ts = .ok result) ↔ structuralFault? true 0 ts = none) ∧
      ∀ failure, reduce ts = .error failure ↔ structuralFault? true 0 ts = some failure := by
  have hagrees := reduce_agrees ts
  cases hs : structuralFault? true 0 ts with
  | none =>
    rw [hs] at hagrees
    cases hr : reduce ts with
    | ok result => simp
    | error e =>
      rw [hr] at hagrees
      cases hagrees with
      | faults _ fault => exact absurd hr (h fault)
  | some failure =>
    rw [hs] at hagrees
    cases hr : reduce ts with
    | ok result =>
      rw [hr] at hagrees
      cases hagrees
    | error e =>
      rw [hr] at hagrees
      cases hagrees with
      | faults _ fault => exact absurd hr (h fault)
      | refuses _ => simp [eq_comm]

/-- A group left open counts before the operand missing in it. -/
theorem reduce_classifies_open_group :
    let ts : List Token := [.leftParen, .number 2, .operator .add]
    (∀ fault, reduce ts ≠ .error (.domain fault)) ∧
      (¬ ∃ result, reduce ts = .ok result) ∧ reduce ts = .error .unbalanced := by
  intro ts
  have h : ∀ fault, reduce ts ≠ .error (.domain fault) := by
    have hreduce : reduce ts = .error .unbalanced := by decide +kernel
    simp [hreduce]
  have hfault : structuralFault? true 0 ts = some .unbalanced := by decide
  obtain ⟨hok, herror⟩ := reduce_classifies h
  exact ⟨h, by simp [hok, hfault], (herror _).mpr hfault⟩

end Calculator

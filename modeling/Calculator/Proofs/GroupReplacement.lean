import Calculator.Proofs.GroupedReduction
import Calculator.Proofs.TraceConservation

/-!
# A value in place of its group

The steps done are only written down. So two readings that differ in nothing else go on alike, each
behind its own steps. Behind a group that has a value the reading is the one behind that value,
except that the steps of the group are done as well; this holds wherever the group stands, and
whatever stands around it.
-/
namespace Calculator

namespace Work

def since (w : Work) (earlier : List Step) : Work := ⟨w.values, w.steps ++ earlier⟩

variable {w : Work} {earlier : List Step}

theorem record_since (values : List Float) (x : Except DomainFault Step) :
    (w.since earlier).record values x
      = w.record values x >>= fun w' => .ok (w'.since earlier) := by
  cases x <;> rfl

theorem perform_since (p : Pending) :
    (w.since earlier).perform p = w.perform p >>= fun w' => .ok (w'.since earlier) := by
  obtain ⟨values, steps⟩ := w
  cases p with
  | operator o =>
    obtain _ | ⟨right, _ | ⟨left, values⟩⟩ := values
    · rfl
    · rfl
    · exact record_since values _
  | negation => cases values <;> rfl
  | function f =>
    obtain _ | ⟨argument, values⟩ := values
    · rfl
    · exact record_since values _
  | paren => rfl

theorem settle_since (due : Pending → Bool) (pending : List Pending) :
    settle due pending (w.since earlier)
      = settle due pending w >>= fun left => .ok (left.1, left.2.since earlier) := by
  induction pending generalizing w with
  | nil => rfl
  | cons p pending ih =>
    cases hp : due p with
    | false =>
      rw [settle_of_head_not_due (by simpa using hp), settle_of_head_not_due (by simpa using hp)]
      rfl
    | true =>
      rw [settle_cons_of_due hp, settle_cons_of_due hp, perform_since, bind_assoc, bind_assoc]
      exact bind_congr_of_ok fun w' _ => ih

end Work

/-- A reduction that went on behind steps done earlier, which stand first in its order. -/
def Reduction.since (result : Reduction) (earlier : List Step) : Reduction :=
  ⟨result.value, earlier.reverse ++ result.steps⟩

namespace Reading

def since (r : Reading) (earlier : List Step) : Reading :=
  ⟨r.work.since earlier, r.pending, r.expectsOperand⟩

variable {r : Reading} {earlier : List Step}

theorem readOperand_since (next : Option Token) (t : Token) :
    (r.since earlier).readOperand next t
      = r.readOperand next t >>= fun r' => .ok (r'.since earlier) := by
  cases t with
  | number x =>
    rw [readOperand, readOperand, takeNumber, takeNumber]
    cases requireFinite x <;> rfl
  | leftParen => rfl
  | rightParen =>
    cases opened : r.pending.contains .paren <;> simp only [readOperand, since, opened] <;> rfl
  | function name =>
    rw [readOperand, readOperand]
    cases NamedFunction.ofName? name with
    | none => rfl
    | some f => by_cases paren : next = some .leftParen <;> simp [paren, since, await]
  | operator o => cases o <;> rfl

theorem close_since : (r.since earlier).close = r.close >>= fun r' => .ok (r'.since earlier) := by
  rw [close_eq_settle, close_eq_settle r, since, Work.settle_since, bind_assoc, bind_assoc]
  refine bind_congr_of_ok fun left settled => ?_
  obtain ⟨rest, w⟩ := left
  -- Settling ends at the parenthesis of the group, if there is one, or with nothing left.
  cases rest with
  | nil => rfl
  | cons p rest =>
    obtain rfl : p = .paren := by simpa using Work.settle_head_not_due settled p rfl
    by_cases call : ∃ f, rest.head? = some (.function f)
    · obtain ⟨f, head⟩ := call
      obtain ⟨rest, rfl⟩ := List.head?_eq_some_iff.mp head
      rw [ok_bind, close_call, close_call, Work.perform_since, bind_assoc, bind_assoc]
      rfl
    · have head : ∀ f, rest.head? ≠ some (.function f) := fun f h => call ⟨f, h⟩
      rw [ok_bind, close_group head, close_group head]
      rfl

theorem readOperator_since (t : Token) :
    (r.since earlier).readOperator t = r.readOperator t >>= fun r' => .ok (r'.since earlier) := by
  cases t with
  | operator o =>
    rw [readOperator_operator, readOperator_operator, since, Work.settle_since, bind_assoc,
      bind_assoc]
    rfl
  | rightParen => exact close_since
  | number _ | function _ | leftParen => rfl

/-- A token is read alike behind any steps. -/
theorem read_since (t : Token) (next : Option Token) :
    (r.since earlier).read t next = r.read t next >>= fun r' => .ok (r'.since earlier) := by
  cases he : r.expectsOperand with
  | true =>
    rw [read_expecting he, read_expecting (r := r.since earlier) he]
    exact readOperand_since next t
  | false =>
    rw [read_complete he, read_complete (r := r.since earlier) he]
    exact readOperator_since t

theorem readAll_since (behind : Option Token) (ts : List Token) :
    (r.since earlier).readAll behind ts
      = r.readAll behind ts >>= fun r' => .ok (r'.since earlier) := by
  induction ts generalizing r with
  | nil => rfl
  | cons t ts ih =>
    rw [readAll_cons, readAll_cons, read_since, bind_assoc, bind_assoc]
    exact bind_congr_of_ok fun r' _ => ih

theorem finish_since :
    (r.since earlier).finish = r.finish >>= fun result => .ok (result.since earlier) := by
  cases hp : r.pending.contains .paren with
  | true =>
    simp only [finish, since, hp]
    rfl
  | false =>
    cases he : r.expectsOperand with
    | true =>
      simp only [finish, since, hp, he]
      rfl
    | false =>
      rw [finish_eq_settle hp he, finish_eq_settle (r := r.since earlier) hp he, since,
        Work.settle_since, bind_assoc, bind_assoc]
      refine bind_congr_of_ok fun left _ => ?_
      obtain ⟨rest, values, steps⟩ := left
      obtain _ | ⟨value, _ | _⟩ := values
      · rfl
      · simp [finish, Work.since, Reduction.since]
      · rfl

/-- Only a name at the end of a stretch asks for the token behind it. -/
theorem readAll_behind {ts : List Token} (unnamed : ∀ name, ts.getLast? ≠ some (.function name))
    (behind behind' : Option Token) : r.readAll behind ts = r.readAll behind' ts := by
  induction ts generalizing r with
  | nil => rfl
  | cons t ts ih =>
    cases ts with
    | nil =>
      have last : r.read t behind = r.read t behind' := by
        cases t with
        | function name => exact absurd rfl (unnamed name)
        | operator o => cases o <;> rfl
        | number _ | leftParen | rightParen => rfl
      rw [readAll_cons, readAll_cons, List.head?_nil, Option.none_or, Option.none_or, last]
      rfl
    | cons u us =>
      rw [List.getLast?_cons_cons] at unnamed
      rw [readAll_cons, readAll_cons, List.head?_cons, Option.some_or, Option.some_or]
      exact bind_congr_of_ok fun r' _ => ih unnamed

end Reading

/-- Two computations fail alike, or give the same value where the first does a block of steps more,
all of them in one place. -/
inductive DoesMore (block : List Step) : Except Failure Reduction → Except Failure Reduction → Prop
  | fails (failure : Failure) : DoesMore block (.error failure) (.error failure)
  | succeeds (value : Float) (before behind : List Step) :
      DoesMore block (.ok ⟨value, before ++ block ++ behind⟩) (.ok ⟨value, before ++ behind⟩)

section Replacement

variable {ts : List Token} {a : Reduction}

theorem doesMore_since (block earlier : List Step) (r : Reading) (q : List Token) :
    DoesMore block ((r.since (block.reverse ++ earlier)).readAll none q >>= Reading.finish)
      ((r.since earlier).readAll none q >>= Reading.finish) := by
  have run (steps : List Step) : (r.since steps).readAll none q >>= Reading.finish
      = (r.readAll none q >>= Reading.finish) >>= fun result => .ok (result.since steps) := by
    rw [Reading.readAll_since, bind_assoc, bind_assoc]
    exact bind_congr_of_ok fun r' _ => Reading.finish_since
  rw [run, run]
  cases r.readAll none q >>= Reading.finish with
  | error failure => exact .fails failure
  | ok result =>
    have more : DoesMore block _ _ := .succeeds result.value earlier.reverse result.steps
    simpa [Reduction.since] using more

/-- From any point between two tokens, a group does the steps of its value and nothing else. -/
theorem doesMore_group (ha : reduce ts = .ok a) {r : Reading} (hb : r.Balanced none)
    (q : List Token) :
    DoesMore a.steps (r.readAll none (Token.grouped ts ++ q) >>= Reading.finish)
      (r.readAll none (.number a.value :: q) >>= Reading.finish) := by
  obtain ⟨w, pending, expects⟩ := r
  cases expects with
  | false => exact .fails .malformed
  | true =>
    have bare : ∀ f, pending.head? ≠ some (.function f) := by
      intro f head
      cases (hb.newest f head).2
    have finite : requireFinite a.value = .ok a.value := by
      rw [requireFinite, if_pos (accounts_of_reduce ha).value_finite]
    have number : (⟨w, pending, true⟩ : Reading).readAll none (.number a.value :: q)
        = (⟨⟨a.value :: w.values, w.steps⟩, pending, false⟩ : Reading).readAll none q := by
      rw [Reading.readAll_cons, Reading.read_expecting rfl, Reading.readOperand,
        Reading.takeNumber, finite]
      rfl
    rw [readAll_grouped ha w pending bare, number]
    exact doesMore_since a.steps w.steps ⟨⟨a.value :: w.values, []⟩, pending, false⟩ q

theorem reduce_grouped (h : reduce ts ≠ .error .unbalanced) :
    reduce (Token.grouped ts) = reduce ts := by
  obtain unbalanced | closed := readAll_enclosed ts ⟨[], []⟩ [] none
  · exact absurd unbalanced h
  have opened : Reading.start.readAll none (Token.grouped ts)
      = (⟨⟨[], []⟩, [.paren], true⟩ : Reading).readAll none (ts ++ [.rightParen]) := rfl
  rw [reduce_eq (Token.grouped ts), opened, closed, bind_assoc]
  cases reduce ts with
  | error failure => rfl
  | ok result =>
    rw [ok_bind, Reading.close_group (by simp)]
    simp [Reading.finish]

/-- The rest of a list goes on from where its first part ends, and has no bearing on that. -/
theorem reduce_append {p : List Token} (unnamed : ∀ name, p.getLast? ≠ some (.function name))
    (us : List Token) :
    reduce (p ++ us)
      = Reading.start.readAll none p >>= fun r => r.readAll none us >>= Reading.finish := by
  rw [reduce_eq, Reading.readAll_append, bind_assoc, Reading.readAll_behind unnamed _ none]

end Replacement

/-- A group that has a value may be replaced by it between any tokens, well formed or not, unless
it is the argument of a function: both lists fail alike or have the same value, and the steps of the
group are all that the first one does more. A group on its own does what its tokens do, failures
included, unless they lack a parenthesis. -/
theorem reduce_group_replaced (ts : List Token) :
    (∀ a, reduce ts = .ok a → ∀ p q : List Token, (∀ name, p.getLast? ≠ some (.function name)) →
      DoesMore a.steps (reduce (p ++ Token.grouped ts ++ q))
        (reduce (p ++ .number a.value :: q))) ∧
      (reduce ts ≠ .error .unbalanced → reduce (Token.grouped ts) = reduce ts) := by
  refine ⟨fun a ha p q unnamed => ?_, reduce_grouped⟩
  rw [List.append_assoc, reduce_append unnamed, reduce_append unnamed]
  cases before : Reading.start.readAll none p with
  | error failure => exact .fails failure
  | ok r => exact doesMore_group ha ((Reading.balanced_start p.head?).readAll before) q

/-- The group of `4 * 3 - (2 + 3) * 2`, in which an operator waits below the group and another one
stands behind it. -/
theorem reduce_group_replaced_product :
    let ts : List Token := [.number 2, .operator .add, .number 3]
    let p : List Token := [.number 4, .operator .mul, .number 3, .operator .sub]
    let q : List Token := [.operator .mul, .number 2]
    let a : Reduction := ⟨5, [.binary .add 2 3 5]⟩
    reduce ts = .ok a ∧ (∀ name, p.getLast? ≠ some (.function name)) ∧
      reduce (p ++ .number a.value :: q)
        = .ok ⟨2, [.binary .mul 4 3 12, .binary .mul 5 2 10, .binary .sub 12 10 2]⟩ ∧
      DoesMore a.steps (reduce (p ++ Token.grouped ts ++ q)) (reduce (p ++ .number a.value :: q)) ∧
      reduce ts ≠ .error .unbalanced ∧ reduce (Token.grouped ts) = reduce ts := by
  intro ts p q a
  have reduced : reduce ts = .ok a := by decide +kernel
  have unnamed : ∀ name, p.getLast? ≠ some (.function name) := by simp [p]
  have balanced : reduce ts ≠ .error .unbalanced := by simp [reduced]
  obtain ⟨replaced, alone⟩ := reduce_group_replaced ts
  exact ⟨reduced, unnamed, by decide +kernel, replaced a reduced p q unnamed, balanced,
    alone balanced⟩

end Calculator

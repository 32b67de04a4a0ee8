import Calculator.Evaluation
import Mathlib.Control.Monad.Basic

/-!
# Runs of the reduction

Laws of the three parts from which every run is made: performing one waiting element, settling
several, and reading tokens. Reading a list in two stretches is reading it at once, and settling
always removes the longest stretch of newest elements that are due.
-/
namespace Calculator

section Fallible

variable {ε α β : Type}

@[simp] theorem ok_bind (a : α) (f : α → Except ε β) : (Except.ok a >>= f) = f a := rfl

@[simp] theorem error_bind (e : ε) (f : α → Except ε β) :
    (Except.error e >>= f) = Except.error e := rfl

@[simp] theorem pure_eq_ok (a : α) : (pure a : Except ε α) = Except.ok a := rfl

theorem bind_congr_of_ok {x : Except ε α} {f g : α → Except ε β}
    (h : ∀ a, x = .ok a → f a = g a) : x >>= f = x >>= g := by
  cases x with
  | ok a => exact h a rfl
  | error e => rfl

theorem bind_eq_ok {x : Except ε α} {f : α → Except ε β} {b : β} :
    x >>= f = .ok b ↔ ∃ a, x = .ok a ∧ f a = .ok b := by
  cases x <;> simp

theorem exists_of_mem_mapM {f : α → Except ε β} {as : List α} {bs : List β}
    (h : as.mapM f = .ok bs) {b : β} (mem : b ∈ bs) : ∃ a ∈ as, f a = .ok b := by
  induction as generalizing bs with
  | nil =>
    rw [List.mapM_nil] at h
    cases h
    cases mem
  | cons a as ih =>
    rw [List.mapM_cons] at h
    obtain ⟨first, now, h⟩ := bind_eq_ok.mp h
    obtain ⟨rest, behind, h⟩ := bind_eq_ok.mp h
    cases h
    obtain rfl | later := List.mem_cons.mp mem
    · exact ⟨a, List.mem_cons_self, now⟩
    · obtain ⟨a', mem', read⟩ := ih behind later
      exact ⟨a', List.mem_cons_of_mem a mem', read⟩

end Fallible

namespace Pending

@[simp] theorem goesBefore_pow (p : Pending) : p.goesBefore .pow = false := by
  rcases p with o | _ | _ | _
  · cases o <;> rfl
  all_goals rfl

@[simp] theorem goesBefore_paren (o : BinaryOperator) : Pending.paren.goesBefore o = false := rfl

@[simp] theorem goesBefore_function (o : BinaryOperator) (f : NamedFunction) :
    (Pending.function f).goesBefore o = false := rfl

end Pending

namespace Work

variable {due : Pending → Bool}

@[simp] theorem settle_nil (w : Work) : settle due [] w = .ok ([], w) := rfl

theorem settle_cons_of_due {p : Pending} (h : due p = true) (pending : List Pending) (w : Work) :
    settle due (p :: pending) w = w.perform p >>= settle due pending := by
  rw [settle, if_pos h]

theorem settle_of_head_not_due {pending : List Pending} (h : ∀ p ∈ pending.head?, due p = false)
    (w : Work) : settle due pending w = .ok (pending, w) := by
  cases pending with
  | nil => rfl
  | cons p pending =>
    have hp : due p = false := h p rfl
    simp [settle, hp]

/-- What is left waiting does not depend on the values. -/
theorem settle_rest {pending rest : List Pending} {w w' : Work}
    (h : settle due pending w = .ok (rest, w')) : rest = pending.dropWhile due := by
  induction pending generalizing w with
  | nil =>
    cases h
    rfl
  | cons p pending ih =>
    cases hp : due p with
    | true =>
      rw [settle_cons_of_due hp, bind_eq_ok] at h
      obtain ⟨w₁, -, h⟩ := h
      rw [ih h, List.dropWhile_cons_of_pos hp]
    | false =>
      rw [settle_of_head_not_due (by simpa using hp)] at h
      cases h
      simp [hp]

theorem settle_head_not_due {pending rest : List Pending} {w w' : Work}
    (h : settle due pending w = .ok (rest, w')) : ∀ p ∈ rest.head?, due p = false := by
  intro p hp
  rw [settle_rest h] at hp
  have hhead := List.head?_dropWhile_not due pending
  rw [Option.mem_def.mp hp] at hhead
  simpa using hhead

/-- Only what is due of the waiting elements matters. -/
theorem settle_congr {due' : Pending → Bool} {pending : List Pending} {w : Work}
    (same : ∀ p ∈ pending, due p = due' p) : settle due pending w = settle due' pending w := by
  induction pending generalizing w with
  | nil => rfl
  | cons p pending ih =>
    have rest : ∀ q ∈ pending, due q = due' q := fun q hq => same q (List.mem_cons_of_mem p hq)
    rw [settle, settle, same p List.mem_cons_self]
    split
    · exact bind_congr_of_ok fun w' _ => ih rest
    · rfl

end Work

namespace Reading

theorem read_expecting {r : Reading} (h : r.expectsOperand = true) (t : Token)
    (next : Option Token) : r.read t next = r.readOperand next t := by
  rw [Reading.read, if_pos h]

theorem read_complete {r : Reading} (h : r.expectsOperand = false) (t : Token)
    (next : Option Token) : r.read t next = r.readOperator t := by
  rw [Reading.read, h]
  rfl

theorem readOperator_operator (r : Reading) (o : BinaryOperator) :
    r.readOperator (.operator o) =
      Work.settle (Pending.goesBefore o) r.pending r.work >>= fun left =>
        .ok ⟨left.2, .operator o :: left.1, true⟩ := rfl

theorem close_group {pending : List Pending} (h : ∀ f, pending.head? ≠ some (.function f))
    (w : Work) (b : Bool) : close ⟨w, .paren :: pending, b⟩ = .ok ⟨w, pending, false⟩ := by
  rw [close, Work.settle_of_head_not_due (by simp), ok_bind]
  split
  · next f pending' _ heq =>
    cases heq
    exact absurd rfl (h f)
  · next heq =>
    cases heq
    rfl
  · next hne => exact absurd rfl (hne pending w)

theorem close_call (f : NamedFunction) (pending : List Pending) (w : Work) (b : Bool) :
    close ⟨w, .paren :: .function f :: pending, b⟩ =
      w.perform (.function f) >>= fun w' => .ok ⟨w', pending, false⟩ := by
  rw [close, Work.settle_of_head_not_due (by simp), ok_bind]
  rfl

theorem close_eq_settle (r : Reading) :
    r.close = Work.settle (· ≠ .paren) r.pending r.work >>= fun left =>
      close ⟨left.2, left.1, false⟩ := by
  rw [close]
  refine bind_congr_of_ok fun left hleft => ?_
  rw [close, Work.settle_of_head_not_due (Work.settle_head_not_due hleft), ok_bind]

@[simp] theorem readAll_nil (r : Reading) (behind : Option Token) :
    r.readAll behind [] = .ok r := rfl

theorem readAll_cons (r : Reading) (behind : Option Token) (t : Token) (ts : List Token) :
    r.readAll behind (t :: ts) = r.read t (ts.head?.or behind) >>= fun r => r.readAll behind ts :=
  rfl

/-- A stretch of tokens may be cut anywhere; the first part then sees what follows the cut. -/
theorem readAll_append (r : Reading) (behind : Option Token) (ts us : List Token) :
    r.readAll behind (ts ++ us) =
      r.readAll (us.head?.or behind) ts >>= fun r => r.readAll behind us := by
  induction ts generalizing r with
  | nil => rfl
  | cons t ts ih =>
    simp only [List.cons_append, readAll_cons, List.head?_append, Option.or_assoc, bind_assoc, ih]

theorem finish_eq_settle {r : Reading} (hp : r.pending.contains .paren = false)
    (he : r.expectsOperand = false) :
    r.finish = Work.settle (fun _ => true) r.pending r.work >>= fun left =>
      finish ⟨left.2, [], false⟩ := by
  rw [finish, hp, he, if_neg Bool.false_ne_true, if_neg Bool.false_ne_true]
  refine bind_congr_of_ok fun left _ => ?_
  rcases left with ⟨_, values, steps⟩
  rcases values with _ | ⟨value, _ | _⟩ <;> rfl

end Reading

theorem reduce_eq (ts : List Token) :
    reduce ts = Reading.start.readAll none ts >>= Reading.finish := rfl

section Evaluation

/-- Once an entry is read as tokens, only their reduction decides. -/
theorem evaluate_of_read {entry : String} {kept : List Char} {tokens : List Token}
    (cleaned : Alphabet.clean entry.toList = .ok kept) (read : Token.ofChars kept = .ok tokens) :
    evaluate entry = do
      let result ← reduce tokens
      return ⟨result.value, tokens, result.steps⟩ := by
  rw [evaluate, cleaned, ok_bind, read, ok_bind]

theorem exists_read_of_evaluate {entry : String} {e : Evaluation} (h : evaluate entry = .ok e) :
    ∃ kept, Alphabet.clean entry.toList = .ok kept ∧ Token.ofChars kept = .ok e.tokens ∧
      reduce e.tokens = .ok ⟨e.value, e.steps⟩ := by
  obtain ⟨kept, cleaned, h⟩ := bind_eq_ok.mp h
  obtain ⟨tokens, read, h⟩ := bind_eq_ok.mp h
  obtain ⟨result, reduced, h⟩ := bind_eq_ok.mp h
  cases h
  exact ⟨kept, cleaned, read, reduced⟩

end Evaluation

end Calculator

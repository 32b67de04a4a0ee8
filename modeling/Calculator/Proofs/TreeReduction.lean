import Calculator.ExpressionTree
import Calculator.Proofs.ReductionRuns

/-!
# Reducing the tokens of a tree

Reading the tokens of a tree leaves the operators on its right edge waiting, so what is read is
not yet what is evaluated. The two agree as soon as the waiting elements are settled, for every
rule of settling that does not spare the operators of the tree's own level; and the next token, a
closing parenthesis or the end always settle by such a rule. The main statement is that reducing
the tokens of any tree of the grammar gives its evaluation, with the same steps or the same fault.
-/
namespace Calculator.ExpressionTree
open Reading Work

def outcome (t : ExpressionTree) : Except Failure Reduction :=
  match t.evaluate with
  | .ok (x, steps) => .ok ⟨x, steps⟩
  | .error fault => .error (.domain fault)

/-- The work after a tree is evaluated on top of earlier work. -/
def workOn (t : ExpressionTree) (w : Work) : Except Failure Work :=
  match t.evaluate with
  | .ok (x, steps) => .ok ⟨x :: w.values, steps.reverse ++ w.steps⟩
  | .error fault => .error (.domain fault)

section WorkOn

variable (w : Work)

theorem workOn_group (t : ExpressionTree) : t.group.workOn w = t.workOn w := rfl

theorem takeNumber_eq_workOn (x : Float) (pending : List Pending) :
    takeNumber ⟨w, pending, true⟩ x =
      (number x).workOn w >>= fun w' => .ok ⟨w', pending, false⟩ := by
  rw [takeNumber, workOn, evaluate, requireFinite]
  cases x.isFinite <;> rfl

theorem workOn_minus (t : ExpressionTree) :
    t.minus.workOn w = t.workOn w >>= fun w' => w'.perform .negation := by
  rw [workOn, workOn, evaluate]
  cases t.evaluate with
  | error fault => rfl
  | ok value => simp [bind, Except.bind, follow, perform, record]

theorem workOn_call (f : NamedFunction) (t : ExpressionTree) :
    (call f t).workOn w = t.workOn w >>= fun w' => w'.perform (.function f) := by
  rw [workOn, workOn, evaluate]
  cases t.evaluate with
  | error fault => rfl
  | ok value =>
    cases hs : Step.ofFunction f value.1 <;>
      simp [bind, Except.bind, follow, perform, record, hs]

theorem workOn_binary (o : BinaryOperator) (left right : ExpressionTree) :
    (binary o left right).workOn w =
      left.workOn w >>= fun w' => right.workOn w' >>= fun w' => w'.perform (.operator o) := by
  rw [workOn, workOn, evaluate]
  cases left.evaluate with
  | error fault => rfl
  | ok x =>
    simp only [ok_bind]
    rw [workOn]
    cases right.evaluate with
    | error fault => rfl
    | ok y =>
      cases hs : Step.ofOperator o x.1 y.1 <;>
        simp [bind, Except.bind, follow, perform, record, hs]

end WorkOn

namespace Level

/-- The least precedence of the operators that may join phrases of a level. Signs count as powers,
and an atom is joined by nothing. -/
def rank : Level → Nat
  | .expression => 1
  | .term => 2
  | .factor | .power => 3
  | .atom => 4

/-- A rule of settling that spares none of the elements a phrase of the level may leave waiting. -/
def Settles (l : Level) (due : Pending → Bool) : Prop :=
  ∀ p k, p.precedence? = some k → l.rank ≤ k → due p = true

/-- Where a phrase of the level may start: no operator joining its parts disturbs what waits, and
no function waits for anything but a parenthesis. -/
structure Admits (l : Level) (pending : List Pending) : Prop where
  undisturbed : ∀ o : BinaryOperator, l.rank ≤ o.precedence →
    ∀ p ∈ pending.head?, p.goesBefore o = false
  noFunction : ∀ f, pending.head? ≠ some (.function f)

theorem Settles.mono {l m : Level} (h : l.rank ≤ m.rank) {due : Pending → Bool}
    (hd : l.Settles due) : m.Settles due :=
  fun p k hp hk => hd p k hp (Nat.le_trans h hk)

theorem Admits.mono {l m : Level} (h : l.rank ≤ m.rank) {pending : List Pending}
    (hp : l.Admits pending) : m.Admits pending :=
  ⟨fun o ho => hp.undisturbed o (Nat.le_trans h ho), hp.noFunction⟩

/-- An operator settles the operands that bind at least as closely, if it groups to the left. -/
theorem settles_goesBefore {l : Level} {o : BinaryOperator} (hg : o.groupsRight = false)
    (h : o.precedence ≤ l.rank) : l.Settles (Pending.goesBefore o) := by
  intro p k hp hk
  simp only [Pending.goesBefore, hp, hg]
  simpa using Nat.le_trans h hk

/-- After an atom any rule will do, because an atom leaves nothing waiting. -/
theorem settles_atom (due : Pending → Bool) : Level.atom.Settles due := by
  intro p k hp hk
  rcases p with o | _ | _ | _
  · cases o <;> simp_all [Pending.precedence?, BinaryOperator.precedence, rank] <;> omega
  · simp_all [Pending.precedence?, BinaryOperator.precedence, rank]; omega
  · cases hp
  · cases hp

theorem settles_ne_paren (l : Level) : l.Settles (· ≠ .paren) := by
  intro p k hp _
  cases p <;> simp_all [Pending.precedence?]

theorem settles_all (l : Level) : l.Settles (fun _ => true) := fun _ _ _ _ => rfl

theorem admits_nil (l : Level) : l.Admits [] := ⟨by simp, by simp⟩

theorem admits_paren (l : Level) (pending : List Pending) : l.Admits (.paren :: pending) :=
  ⟨by simp, by simp⟩

/-- An operator stays below a phrase whose own operators bind more closely. -/
theorem admits_operator {l : Level} {o : BinaryOperator} (h : o.precedence < l.rank)
    (pending : List Pending) : l.Admits (.operator o :: pending) := by
  refine ⟨?_, by simp⟩
  intro o' ho' p hp
  obtain rfl : Pending.operator o = p := by simpa using hp
  have hlt : o.precedence < o'.precedence := Nat.lt_of_lt_of_le h ho'
  simp only [Pending.goesBefore, Pending.precedence?]
  split <;> simp <;> omega

/-- Within a factor only powers join phrases, and they disturb nothing. -/
theorem admits_factor {pending : List Pending} (h : ∀ f, pending.head? ≠ some (.function f)) :
    Level.factor.Admits pending := by
  refine ⟨?_, h⟩
  intro o ho p _
  obtain rfl : o = .pow := by cases o <;> simp_all [rank, BinaryOperator.precedence]
  exact p.goesBefore_pow

end Level

/-- How a phrase of a level is read where `pending` waits: an operand is complete, the same groups
are open, and settling what then waits is evaluating the phrase and settling what waited. -/
structure ReadAs (l : Level) (t : ExpressionTree) (w : Work) (pending : List Pending)
    (result : Except Failure Reading) : Prop where
  complete : ∀ r, result = .ok r → r.expectsOperand = false
  opened : ∀ r, result = .ok r → r.pending.contains .paren = pending.contains .paren
  settled : ∀ due, l.Settles due →
    (result >>= fun r => settle due r.pending r.work) = t.workOn w >>= settle due pending

section ReadAs

variable {l m : Level} {t left right : ExpressionTree} {w : Work} {pending : List Pending}
  {result : Except Failure Reading}

theorem ReadAs.mono (h : l.rank ≤ m.rank) (ht : ReadAs m t w pending result) :
    ReadAs l t w pending result :=
  ⟨ht.complete, ht.opened, fun due hd => ht.settled due (hd.mono h)⟩

/-- An operator behind a phrase finds its value, if it settles the phrase and disturbs nothing
below it. -/
theorem ReadAs.read_operator {o : BinaryOperator} (ht : ReadAs l t w pending result)
    (hs : l.Settles (Pending.goesBefore o)) (hu : ∀ p ∈ pending.head?, p.goesBefore o = false)
    (next : Option Token) :
    (result >>= fun r => r.read (.operator o) next) =
      t.workOn w >>= fun w' => .ok ⟨w', .operator o :: pending, true⟩ := by
  calc
    (result >>= fun r => r.read (.operator o) next)
      = (result >>= fun r => settle (Pending.goesBefore o) r.pending r.work) >>=
          fun left => .ok ⟨left.2, .operator o :: left.1, true⟩ := by
        rw [bind_assoc]
        refine bind_congr_of_ok fun r hr => ?_
        rw [read_complete (ht.complete r hr), readOperator_operator]
    _ = t.workOn w >>= fun w' => .ok ⟨w', .operator o :: pending, true⟩ := by
        rw [ht.settled _ hs, bind_assoc]
        refine bind_congr_of_ok fun w' _ => ?_
        rw [settle_of_head_not_due hu, ok_bind]

/-- Reading the closing parenthesis settles the group; a function waiting below it is performed. -/
theorem ReadAs.read_rightParen (ht : ReadAs l t w (.paren :: pending) result)
    (next : Option Token) :
    (result >>= fun r => r.read .rightParen next) =
      t.workOn w >>= fun w' => close ⟨w', .paren :: pending, false⟩ := by
  calc
    (result >>= fun r => r.read .rightParen next)
      = (result >>= fun r => settle (· ≠ .paren) r.pending r.work) >>=
          fun left => close ⟨left.2, left.1, false⟩ := by
        rw [bind_assoc]
        refine bind_congr_of_ok fun r hr => ?_
        rw [read_complete (ht.complete r hr), readOperator, close_eq_settle]
    _ = t.workOn w >>= fun w' => close ⟨w', .paren :: pending, false⟩ := by
        rw [ht.settled _ (Level.settles_ne_paren l), bind_assoc]
        refine bind_congr_of_ok fun w' _ => ?_
        rw [settle_of_head_not_due (by simp), ok_bind]

theorem ReadAs.of_evaluated
    (h : result = t.workOn w >>= fun w' => .ok ⟨w', pending, false⟩) :
    ReadAs l t w pending result := by
  subst h
  refine ⟨?_, ?_, ?_⟩
  · intro r hr
    obtain ⟨w', -, hr⟩ := bind_eq_ok.mp hr
    cases hr
    rfl
  · intro r hr
    obtain ⟨w', -, hr⟩ := bind_eq_ok.mp hr
    cases hr
    rfl
  · intro due _
    rw [bind_assoc]
    rfl

theorem readAll_number (x : Float) (w : Work) (pending : List Pending) (behind : Option Token) :
    readAll ⟨w, pending, true⟩ behind (number x).tokens =
      (number x).workOn w >>= fun w' => .ok ⟨w', pending, false⟩ := by
  rw [tokens, readAll_cons, read_expecting rfl, readOperand, takeNumber_eq_workOn, bind_assoc]
  rfl

theorem readAll_group {behind : Option Token}
    (ht : ReadAs l t w (.paren :: pending)
      (readAll ⟨w, .paren :: pending, true⟩ (some .rightParen) t.tokens))
    (hp : ∀ f, pending.head? ≠ some (.function f)) :
    readAll ⟨w, pending, true⟩ behind t.group.tokens =
      t.group.workOn w >>= fun w' => .ok ⟨w', pending, false⟩ := by
  rw [tokens, List.cons_append, readAll_cons, read_expecting rfl, readOperand, ok_bind, await,
    readAll_append]
  simp only [readAll_cons, ← bind_assoc]
  rw [List.head?_cons, Option.some_or, ht.read_rightParen, bind_assoc, workOn_group]
  refine bind_congr_of_ok fun w' _ => ?_
  rw [close_group hp]
  rfl

theorem readAll_call {f : NamedFunction} {behind : Option Token}
    (ht : ReadAs l t w (.paren :: .function f :: pending)
      (readAll ⟨w, .paren :: .function f :: pending, true⟩ (some .rightParen) t.tokens)) :
    readAll ⟨w, pending, true⟩ behind (call f t).tokens =
      (call f t).workOn w >>= fun w' => .ok ⟨w', pending, false⟩ := by
  have hname (next : Option Token) (h : next = some .leftParen) (r : Reading) :
      r.readOperand next (.function f.name) = .ok (r.await (.function f)) := by
    simp [readOperand, h]
  rw [tokens, List.cons_append, List.cons_append, readAll_cons, read_expecting rfl,
    hname _ (by simp), ok_bind, readAll_cons, read_expecting rfl, readOperand, ok_bind, await,
    await, readAll_append]
  simp only [readAll_cons, ← bind_assoc]
  rw [List.head?_cons, Option.some_or, ht.read_rightParen, bind_assoc, workOn_call, bind_assoc]
  refine bind_congr_of_ok fun w' _ => ?_
  rw [close_call, bind_assoc]
  rfl

/-- An operator waits on top of what waited, and is performed once its right operand is settled. -/
theorem ReadAs.join {n : Level} {o : BinaryOperator} {behind : Option Token}
    (hl : ReadAs m left w pending
      (readAll ⟨w, pending, true⟩ (some (.operator o)) left.tokens))
    (hr : ∀ w', ReadAs n right w' (.operator o :: pending)
      (readAll ⟨w', .operator o :: pending, true⟩ behind right.tokens))
    (hs : m.Settles (Pending.goesBefore o)) (hu : ∀ p ∈ pending.head?, p.goesBefore o = false)
    (hn : l.rank ≤ n.rank) (ho : l.rank ≤ o.precedence) :
    ReadAs l (binary o left right) w pending
      (readAll ⟨w, pending, true⟩ behind (binary o left right).tokens) := by
  have hread : readAll ⟨w, pending, true⟩ behind (ExpressionTree.binary o left right).tokens =
      left.workOn w >>= fun w' =>
        readAll ⟨w', .operator o :: pending, true⟩ behind right.tokens := by
    rw [tokens, readAll_append]
    simp only [readAll_cons, ← bind_assoc]
    rw [List.head?_cons, Option.some_or, hl.read_operator hs hu, bind_assoc]
    rfl
  rw [hread]
  refine ⟨?_, ?_, ?_⟩
  · intro r h
    obtain ⟨w', -, h⟩ := bind_eq_ok.mp h
    exact (hr w').complete r h
  · intro r h
    obtain ⟨w', -, h⟩ := bind_eq_ok.mp h
    rw [(hr w').opened r h]
    rfl
  · intro due hd
    have hdue : due (.operator o) = true := hd _ _ rfl ho
    rw [bind_assoc, workOn_binary, bind_assoc]
    refine bind_congr_of_ok fun w' _ => ?_
    rw [(hr w').settled due (hd.mono hn), bind_assoc]
    exact bind_congr_of_ok fun w'' _ => settle_cons_of_due hdue pending w''

/-- A minus sign in front of a factor waits until the factor is settled. -/
theorem ReadAs.minus {behind : Option Token}
    (ht : ReadAs .factor t w (.negation :: pending)
      (readAll ⟨w, .negation :: pending, true⟩ behind t.tokens)) :
    ReadAs .factor t.minus w pending (readAll ⟨w, pending, true⟩ behind t.minus.tokens) := by
  have hread : readAll ⟨w, pending, true⟩ behind t.minus.tokens =
      readAll ⟨w, .negation :: pending, true⟩ behind t.tokens := rfl
  rw [hread]
  refine ⟨ht.complete, ?_, ?_⟩
  · intro r h
    rw [ht.opened r h]
    rfl
  · intro due hd
    have hdue : due .negation = true := hd _ _ rfl (Nat.le_refl _)
    rw [ht.settled due hd, workOn_minus, bind_assoc]
    exact bind_congr_of_ok fun w' _ => settle_cons_of_due hdue pending w'

/-- Sums and products are chains: a further operator of the level settles what stands before it. -/
theorem ReadAs.chain {n : Level} {o : BinaryOperator} {behind : Option Token}
    (hg : o.groupsRight = false) (ho : l.rank = o.precedence) (hn : l.rank < n.rank)
    (hp : l.Admits pending)
    (hl : ∀ w pending behind, l.Admits pending →
      ReadAs l left w pending (readAll ⟨w, pending, true⟩ behind left.tokens))
    (hr : ∀ w pending behind, n.Admits pending →
      ReadAs n right w pending (readAll ⟨w, pending, true⟩ behind right.tokens)) :
    ReadAs l (binary o left right) w pending
      (readAll ⟨w, pending, true⟩ behind (binary o left right).tokens) := by
  have hleft := hl w pending (some (.operator o)) hp
  have hright (w' : Work) := hr w' (.operator o :: pending) behind
    (Level.admits_operator (by omega) pending)
  have hsettles : l.Settles (Pending.goesBefore o) := Level.settles_goesBefore hg (by omega)
  exact .join hleft hright hsettles (hp.undisturbed o (by omega)) (Nat.le_of_lt hn) (by omega)

end ReadAs

/-- Every phrase of the grammar is read as its tree, wherever it may start. The induction is on the
derivation, and carries the work and all that waits. -/
theorem readAs_of_hasLevel {l : Level} {t : ExpressionTree} (h : HasLevel l t) (w : Work)
    (pending : List Pending) (behind : Option Token) (hp : l.Admits pending) :
    ReadAs l t w pending (readAll ⟨w, pending, true⟩ behind t.tokens) := by
  induction h generalizing w pending behind with
  | number x => exact .of_evaluated (readAll_number x w pending behind)
  | group h ih =>
    have hi := ih w (.paren :: pending) (some .rightParen) (Level.admits_paren _ _)
    exact .of_evaluated (readAll_group hi hp.noFunction)
  | call f h ih =>
    have hi := ih w (.paren :: .function f :: pending) (some .rightParen) (Level.admits_paren _ _)
    exact .of_evaluated (readAll_call hi)
  | powerOfAtom h ih =>
    have hle : Level.power.rank ≤ Level.atom.rank := by decide
    exact (ih w pending behind (hp.mono hle)).mono hle
  | power hb he ihb ihe =>
    have hbase := ihb w pending (some (.operator .pow)) (hp.mono (by decide))
    have hexponent (w' : Work) := ihe w' (.operator .pow :: pending) behind
      (Level.admits_factor (by simp))
    exact .join hbase hexponent (Level.settles_atom _) (fun p _ => p.goesBefore_pow)
      (by decide) (by decide)
  | factorOfPower h ih =>
    have hle : Level.factor.rank ≤ Level.power.rank := by decide
    exact (ih w pending behind (hp.mono hle)).mono hle
  | plus h ih =>
    have hread := ih w pending behind hp
    exact ⟨hread.complete, hread.opened, hread.settled⟩
  | minus h ih =>
    exact .minus (ih w (.negation :: pending) behind (Level.admits_factor (by simp)))
  | termOfFactor h ih =>
    have hle : Level.term.rank ≤ Level.factor.rank := by decide
    exact (ih w pending behind (hp.mono hle)).mono hle
  | @product o left right ho hl hr ihl ihr =>
    have hlevel : Level.term.rank = o.precedence := by rcases ho with rfl | rfl <;> rfl
    have hgroup : o.groupsRight = false := by rcases ho with rfl | rfl <;> rfl
    exact .chain hgroup hlevel (by decide) hp ihl ihr
  | expressionOfTerm h ih =>
    have hle : Level.expression.rank ≤ Level.term.rank := by decide
    exact (ih w pending behind (hp.mono hle)).mono hle
  | @sum o left right ho hl hr ihl ihr =>
    have hlevel : Level.expression.rank = o.precedence := by rcases ho with rfl | rfl <;> rfl
    have hgroup : o.groupsRight = false := by rcases ho with rfl | rfl <;> rfl
    exact .chain hgroup hlevel (by decide) hp ihl ihr

/-- Reducing the tokens of a tree of the grammar gives the value of the tree with the steps of its
evaluation in their order, or the fault that ends the evaluation. -/
theorem reduce_tokens {t : ExpressionTree} (h : HasLevel .expression t) :
    reduce t.tokens = t.outcome := by
  have hread : ReadAs .expression t ⟨[], []⟩ [] (start.readAll none t.tokens) :=
    readAs_of_hasLevel h ⟨[], []⟩ [] none (Level.admits_nil _)
  have hfinish (r : Reading) (hr : start.readAll none t.tokens = .ok r) :
      r.finish = settle (fun _ => true) r.pending r.work >>= fun left =>
        finish ⟨left.2, [], false⟩ :=
    finish_eq_settle (hread.opened r hr) (hread.complete r hr)
  calc
    reduce t.tokens
      = (start.readAll none t.tokens >>= fun r => settle (fun _ => true) r.pending r.work) >>=
          fun left => finish ⟨left.2, [], false⟩ := by
        rw [reduce_eq, bind_assoc]
        exact bind_congr_of_ok hfinish
    _ = t.workOn ⟨[], []⟩ >>= fun w => finish ⟨w, [], false⟩ := by
        rw [hread.settled _ (Level.settles_all _), bind_assoc]
        rfl
    _ = t.outcome := by
        rw [workOn, outcome]
        cases t.evaluate with
        | error fault => rfl
        | ok result => simp [finish]

/-- The tree of `-(2 + 3) * sqrt(16) - 1`: the sign covers the group but not the product. -/
theorem reduce_tokens_signed_product :
    let t : ExpressionTree :=
      .binary .sub
        (.binary .mul (.minus (.group (.binary .add (.number 2) (.number 3))))
          (.call .sqrt (.number 16)))
        (.number 1)
    HasLevel .expression t ∧
      reduce t.tokens = .ok ⟨-21, [.binary .add 2 3 5, .negation 5 (-5), .call .sqrt 16 4,
        .binary .mul (-5) 4 (-20), .binary .sub (-20) 1 (-21)]⟩ := by
  intro t
  have hnumber (x : Float) : HasLevel .term (.number x) :=
    .termOfFactor (.factorOfPower (.powerOfAtom (.number x)))
  have hsum : HasLevel .expression (.binary .add (.number 2) (.number 3)) :=
    .sum (.inl rfl) (.expressionOfTerm (hnumber 2)) (hnumber 3)
  have hsign : HasLevel .factor (.minus (.group (.binary .add (.number 2) (.number 3)))) :=
    .minus (.factorOfPower (.powerOfAtom (.group hsum)))
  have hroot : HasLevel .factor (.call .sqrt (.number 16)) :=
    .factorOfPower (.powerOfAtom (.call .sqrt (.expressionOfTerm (hnumber 16))))
  have ht : HasLevel .expression t :=
    .sum (.inr rfl) (.expressionOfTerm (.product (.inl rfl) (.termOfFactor hsign) hroot))
      (hnumber 1)
  exact ⟨ht, (reduce_tokens ht).trans (by decide +kernel)⟩

end Calculator.ExpressionTree

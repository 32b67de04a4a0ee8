import Calculator.ExpressionTree
import Calculator.Proofs.StructuralClassification

/-!
# Phrases behind a reduction

A list that has a value consists of the tokens of a tree. Reading keeps no tree, so the tree is
rebuilt from what is known at each point between two tokens: how the parentheses still open divide
what is read, and, for the stretch behind the last of them, that a factor would complete it to an
expression, or that it ends in an atom where a factor may stand.
-/
namespace Calculator.ExpressionTree

def Phrase (l : Level) (ts : List Token) : Prop := ∃ t, HasLevel l t ∧ t.tokens = ts

section Phrase

variable {ts us : List Token}

theorem phrase_number (x : Float) : Phrase .atom [.number x] := ⟨.number x, .number x, rfl⟩

theorem Phrase.group (h : Phrase .expression ts) :
    Phrase .atom (.leftParen :: ts ++ [.rightParen]) := by
  obtain ⟨t, ht, rfl⟩ := h
  exact ⟨t.group, .group ht, rfl⟩

theorem Phrase.call (f : NamedFunction) (h : Phrase .expression ts) :
    Phrase .atom (.function f.name :: .leftParen :: ts ++ [.rightParen]) := by
  obtain ⟨t, ht, rfl⟩ := h
  exact ⟨.call f t, .call f ht, rfl⟩

theorem Phrase.factor (h : Phrase .atom ts) : Phrase .factor ts := by
  obtain ⟨t, ht, rfl⟩ := h
  exact ⟨t, .factorOfPower (.powerOfAtom ht), rfl⟩

theorem Phrase.term (h : Phrase .factor ts) : Phrase .term ts := by
  obtain ⟨t, ht, rfl⟩ := h
  exact ⟨t, .termOfFactor ht, rfl⟩

theorem Phrase.expression (h : Phrase .term ts) : Phrase .expression ts := by
  obtain ⟨t, ht, rfl⟩ := h
  exact ⟨t, .expressionOfTerm ht, rfl⟩

theorem Phrase.sign {o : BinaryOperator} (ho : o = .add ∨ o = .sub) (h : Phrase .factor ts) :
    Phrase .factor (.operator o :: ts) := by
  obtain ⟨t, ht, rfl⟩ := h
  rcases ho with rfl | rfl
  · exact ⟨t.plus, .plus ht, rfl⟩
  · exact ⟨t.minus, .minus ht, rfl⟩

theorem Phrase.power (hb : Phrase .atom ts) (he : Phrase .factor us) :
    Phrase .factor (ts ++ .operator .pow :: us) := by
  obtain ⟨t, ht, rfl⟩ := hb
  obtain ⟨u, hu, rfl⟩ := he
  exact ⟨.binary .pow t u, .factorOfPower (.power ht hu), rfl⟩

theorem Phrase.product {o : BinaryOperator} (ho : o = .mul ∨ o = .div) (hl : Phrase .term ts)
    (hr : Phrase .factor us) : Phrase .term (ts ++ .operator o :: us) := by
  obtain ⟨t, ht, rfl⟩ := hl
  obtain ⟨u, hu, rfl⟩ := hr
  exact ⟨.binary o t u, .product ho ht hu, rfl⟩

theorem Phrase.sum {o : BinaryOperator} (ho : o = .add ∨ o = .sub) (hl : Phrase .expression ts)
    (hr : Phrase .term us) : Phrase .expression (ts ++ .operator o :: us) := by
  obtain ⟨t, ht, rfl⟩ := hl
  obtain ⟨u, hu, rfl⟩ := hr
  exact ⟨.binary o t u, .sum ho ht hu, rfl⟩

end Phrase

def TakesTerm (ts : List Token) : Prop := ∀ us, Phrase .term us → Phrase .expression (ts ++ us)

/-- A factor completes the stretch so that it ends in a term where any term may stand. -/
def TakesFactor (ts : List Token) : Prop :=
  ∀ us, Phrase .factor us →
    ∃ front last, ts ++ us = front ++ last ∧ TakesTerm front ∧ Phrase .term last

/-- The stretch ends in an atom where any factor may stand. -/
def EndsInAtom (ts : List Token) : Prop :=
  ∃ front last, ts = front ++ last ∧ TakesFactor front ∧ Phrase .atom last

section Stretches

variable {ts us : List Token}

theorem takesTerm_nil : TakesTerm [] := fun _ h => h.expression

theorem TakesTerm.takesFactor (h : TakesTerm ts) : TakesFactor ts :=
  fun us hus => ⟨ts, us, rfl, h, hus.term⟩

theorem TakesFactor.sign {o : BinaryOperator} (ho : o = .add ∨ o = .sub) (h : TakesFactor ts) :
    TakesFactor (ts ++ [.operator o]) := by
  intro us hus
  rw [List.append_assoc]
  exact h _ (hus.sign ho)

theorem TakesFactor.atom (h : TakesFactor ts) (ha : Phrase .atom us) : EndsInAtom (ts ++ us) :=
  ⟨ts, us, rfl, h, ha⟩

/-- The stretch itself ends in a term, since the atom is a factor. -/
theorem EndsInAtom.last_term (h : EndsInAtom ts) :
    ∃ front last, ts = front ++ last ∧ TakesTerm front ∧ Phrase .term last := by
  obtain ⟨front, last, rfl, hfront, hlast⟩ := h
  exact hfront last hlast.factor

theorem EndsInAtom.expression (h : EndsInAtom ts) : Phrase .expression ts := by
  obtain ⟨front, last, rfl, hfront, hlast⟩ := h.last_term
  exact hfront last hlast

/-- Behind an atom every operator may follow: a sum takes the whole stretch for its left operand,
a product the term at its end, and a power the atom. -/
theorem EndsInAtom.operator (h : EndsInAtom ts) (o : BinaryOperator) :
    TakesFactor (ts ++ [.operator o]) := by
  have sum (ho : o = .add ∨ o = .sub) : TakesFactor (ts ++ [.operator o]) := by
    refine TakesTerm.takesFactor fun us hus => ?_
    rw [List.append_assoc]
    exact h.expression.sum ho hus
  have product (ho : o = .mul ∨ o = .div) : TakesFactor (ts ++ [.operator o]) := by
    obtain ⟨front, last, rfl, hfront, hlast⟩ := h.last_term
    intro us hus
    exact ⟨front, last ++ .operator o :: us, by simp, hfront, hlast.product ho hus⟩
  cases o with
  | add => exact sum (.inl rfl)
  | sub => exact sum (.inr rfl)
  | mul => exact product (.inl rfl)
  | div => exact product (.inr rfl)
  | pow =>
    obtain ⟨front, last, rfl, hfront, hlast⟩ := h
    intro us hus
    have hpower := hfront _ (hlast.power hus)
    simpa only [List.append_assoc, List.cons_append, List.nil_append] using hpower

end Stretches

/-- What is read up to the last parenthesis still open, by the number of those open: in front of
each stands a stretch that takes a factor, and perhaps the function that it calls. -/
inductive Opening : Nat → List Token → Prop
  | nil : Opening 0 []
  | group {n : Nat} {outer stretch : List Token} (ho : Opening n outer)
      (hs : TakesFactor stretch) : Opening (n + 1) (outer ++ stretch ++ [.leftParen])
  | call {n : Nat} {outer stretch : List Token} (f : NamedFunction) (ho : Opening n outer)
      (hs : TakesFactor stretch) :
      Opening (n + 1) (outer ++ stretch ++ [.function f.name] ++ [.leftParen])

/-- A point between two tokens: whether an operand is expected, how many parentheses are open,
what is read, and the next token. -/
inductive Point : Bool → Nat → List Token → Option Token → Prop
  | expecting {n : Nat} {outer stretch : List Token} {next : Option Token} (ho : Opening n outer)
      (hs : TakesFactor stretch) : Point true n (outer ++ stretch) next
  | named {n : Nat} {outer stretch : List Token} (f : NamedFunction) (ho : Opening n outer)
      (hs : TakesFactor stretch) :
      Point true n (outer ++ stretch ++ [.function f.name]) (some .leftParen)
  | complete {n : Nat} {outer stretch : List Token} {next : Option Token} (ho : Opening n outer)
      (hs : EndsInAtom stretch) : Point false n (outer ++ stretch) next

theorem Opening.point {n : Nat} {outer : List Token} (ho : Opening n outer)
    (next : Option Token) : Point true n outer next := by
  have hpoint : Point true n (outer ++ []) next := .expecting ho takesTerm_nil.takesFactor
  rwa [List.append_nil] at hpoint

/-- A closed group is an atom of the stretch in front of it. -/
theorem Opening.close {n : Nat} {outer stretch : List Token} (ho : Opening (n + 1) outer)
    (hs : EndsInAtom stretch) (next : Option Token) :
    Point false n (outer ++ stretch ++ [.rightParen]) next := by
  cases ho with
  | @group _ outer front ho hf =>
    have hatom := hf.atom hs.expression.group
    have hpoint : Point false n (outer ++ (front ++ _)) next := .complete ho hatom
    simpa only [List.append_assoc, List.cons_append, List.nil_append] using hpoint
  | @call _ outer front f ho hf =>
    have hatom := hf.atom (hs.expression.call f)
    have hpoint : Point false n (outer ++ (front ++ _)) next := .complete ho hatom
    simpa only [List.append_assoc, List.cons_append, List.nil_append] using hpoint

section Points

variable {e : Bool} {n : Nat} {outer stretch past ts : List Token} {t : Token}

theorem Opening.step_expecting (ho : Opening n outer) (hs : TakesFactor stretch)
    (h : structuralFault? true n (t :: ts) = none) :
    ∃ e' n', Point e' n' (outer ++ stretch ++ [t]) ts.head? ∧ structuralFault? e' n' ts = none := by
  cases t with
  | number x =>
    refine ⟨false, n, ?_, by simpa [structuralFault?] using h⟩
    rw [List.append_assoc]
    exact .complete ho (hs.atom (phrase_number x))
  | leftParen =>
    exact ⟨true, n + 1, (Opening.group ho hs).point _, by simpa [structuralFault?] using h⟩
  | function name =>
    simp only [structuralFault?, if_true] at h
    cases hname : NamedFunction.ofName? name with
    | none => simp [hname] at h
    | some f =>
      obtain rfl := NamedFunction.name_of_ofName? hname
      by_cases hnext : ts.head? = some .leftParen
      · refine ⟨true, n, ?_, by simpa [hnext] using h⟩
        rw [hnext]
        exact .named f ho hs
      · simp [hnext] at h
  | rightParen =>
    simp only [structuralFault?, if_true] at h
    split at h <;> cases h
  | operator o =>
    have hsign : o = .add ∨ o = .sub := by
      by_contra hne
      rw [not_or] at hne
      simp [structuralFault?, hne] at h
    refine ⟨true, n, ?_, ?_⟩
    · rw [List.append_assoc]
      exact .expecting ho (hs.sign hsign)
    · rcases hsign with rfl | rfl <;> simpa [structuralFault?] using h

theorem Opening.step_complete (ho : Opening n outer) (hs : EndsInAtom stretch)
    (h : structuralFault? false n (t :: ts) = none) :
    ∃ e' n', Point e' n' (outer ++ stretch ++ [t]) ts.head? ∧ structuralFault? e' n' ts = none := by
  cases t with
  | operator o =>
    refine ⟨true, n, ?_, by simpa [structuralFault?] using h⟩
    rw [List.append_assoc]
    exact .expecting ho (hs.operator o)
  | rightParen =>
    cases n with
    | zero => simp [structuralFault?] at h
    | succ n => exact ⟨false, n, ho.close hs _, by simpa [structuralFault?] using h⟩
  | number _ | function _ | leftParen => simp [structuralFault?] at h

theorem Point.step (hp : Point e n past (some t)) (h : structuralFault? e n (t :: ts) = none) :
    ∃ e' n', Point e' n' (past ++ [t]) ts.head? ∧ structuralFault? e' n' ts = none := by
  cases hp with
  | expecting ho hs => exact ho.step_expecting hs h
  | named f ho hs =>
    exact ⟨true, n + 1, (Opening.call f ho hs).point _, by simpa [structuralFault?] using h⟩
  | complete ho hs => exact ho.step_complete hs h

theorem Point.finish (hp : Point e n past none) (h : structuralFault? e n [] = none) :
    Phrase .expression past := by
  cases hp with
  | expecting ho hs =>
    rw [structuralFault?] at h
    split at h <;> cases h
  | complete ho hs =>
    cases ho with
    | nil => exact hs.expression
    | group ho hf => simp [structuralFault?] at h
    | call f ho hf => simp [structuralFault?] at h

/-- From any point on, tokens without a fault make an expression of all that is read. -/
theorem Point.run (hp : Point e n past ts.head?) (h : structuralFault? e n ts = none) :
    Phrase .expression (past ++ ts) := by
  induction ts generalizing e n past with
  | nil =>
    rw [List.append_nil]
    exact hp.finish h
  | cons t ts ih =>
    obtain ⟨e', n', hp', h'⟩ := hp.step h
    have hrun := ih hp' h'
    simpa only [List.append_assoc, List.cons_append, List.nil_append] using hrun

end Points

/-- A list without a structural fault consists of the tokens of a tree. -/
theorem phrase_of_structuralFault? {ts : List Token} (h : structuralFault? true 0 ts = none) :
    Phrase .expression ts :=
  (Opening.nil.point ts.head?).run h

/-- A list of tokens that reduces to a value is written by a tree of the grammar, with no token
left out. -/
theorem exists_tree_of_reduce {ts : List Token} {result : Reduction}
    (h : reduce ts = .ok result) : ∃ t, HasLevel .expression t ∧ t.tokens = ts :=
  phrase_of_structuralFault? (structuralFault?_of_reduce h)

theorem exists_tree_of_reduce_root :
    let ts : List Token := [.operator .sub, .function "sqrt", .leftParen, .number 9, .rightParen,
      .operator .mul, .number 2]
    reduce ts = .ok ⟨-6, [.call .sqrt 9 3, .negation 3 (-3), .binary .mul (-3) 2 (-6)]⟩ ∧
      ∃ t, HasLevel .expression t ∧ t.tokens = ts := by
  intro ts
  have hreduce : reduce ts =
      .ok ⟨-6, [.call .sqrt 9 3, .negation 3 (-3), .binary .mul (-3) 2 (-6)]⟩ := by
    decide +kernel
  exact ⟨hreduce, exists_tree_of_reduce hreduce⟩

end Calculator.ExpressionTree

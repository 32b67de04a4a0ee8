import Calculator.Proofs.TokenText
import Calculator.Proofs.TraceConservation

/-!
# Lines of steps

The lines shown for a reduction tell which steps were done. A finite number is known by its written
form, a zero by its sign too. Numbers and names hold no blank and no parenthesis, so the first of
these tells a step with two operands from the others, and the further ones show where its numbers
end. No step holds a line end.
-/
namespace Calculator
open Binary64 Lexeme

/-- A run of characters ends in front of the first one that does not belong to it, so a text that
starts with a run is cut behind it in one way only. -/
theorem run_append_inj {p : Char → Bool} {s t u v : List Char} (hs : ∀ c ∈ s, p c = true)
    (ht : ∀ c ∈ t, p c = true) (hu : ∀ c ∈ u.head?, p c = false) (hv : ∀ c ∈ v.head?, p c = false)
    (same : s ++ u = t ++ v) : s = t ∧ u = v := by
  obtain ⟨run, -⟩ := span_append (s := s) (t := u) fun _ => hu
  obtain ⟨run', -⟩ := span_append (s := t) (t := v) fun _ => hv
  rw [List.takeWhile_eq_self_iff.mpr hs] at run
  rw [List.takeWhile_eq_self_iff.mpr ht, ← same, run] at run'
  rw [run'] at same
  exact ⟨run', List.append_cancel_left same⟩

theorem BinaryOperator.eq_of_symbol_eq {o o' : BinaryOperator} (same : o.symbol = o'.symbol) :
    o = o' := by
  have read := ofSymbol?_symbol o
  rw [same, ofSymbol?_symbol] at read
  exact (Option.some.inj read).symm

theorem NamedFunction.eq_of_name_eq {f g : NamedFunction} (same : f.name = g.name) : f = g := by
  have read := ofName?_name f
  rw [same, ofName?_name] at read
  exact (Option.some.inj read).symm

theorem Decimal.toFloat_eq_of_chars {d d' : Decimal} (same : d.chars = d'.chars) :
    d.toFloat = d'.toFloat := by
  have read := Token.ofLexeme_decimal d
  rw [same, Token.ofLexeme_decimal] at read
  exact (Token.number.inj (Except.ok.inj read)).symm

namespace ShortestDecimal

variable {x y : Float}

theorem magnitudeBits_eq_of_chars (hx : x.isFinite = true) (hy : y.isFinite = true)
    (same : (ofBits (magnitudeBits x)).chars = (ofBits (magnitudeBits y)).chars) :
    magnitudeBits x = magnitudeBits y := by
  rw [← magnitudeBits_toFloat_ofBits hx, ← magnitudeBits_toFloat_ofBits hy,
    Decimal.toFloat_eq_of_chars same]

/-- A minus sign stands in front of the numbers that have one and of no others, since a magnitude
starts with a digit. -/
theorem head_chars_eq_minus_iff (finite : x.isFinite = true) :
    (chars x).head? = some '-' ↔ isNegative x = true := by
  rw [chars_eq_signed finite]
  split
  · next negative => simp [negative]
  · next unsigned =>
    refine iff_of_false (fun head => ?_) unsigned
    cases (Decimal.plain_chars _).head_digit '-' head

/-- A finite number is known by its written form. Negative zero is written with its sign. -/
theorem eq_of_chars_eq (hx : x.isFinite = true) (hy : y.isFinite = true)
    (same : chars x = chars y) : x = y := by
  have sign : isNegative x = isNegative y := by
    rw [Bool.eq_iff_iff, ← head_chars_eq_minus_iff hx, ← head_chars_eq_minus_iff hy, same]
  rw [chars_eq_signed hx, chars_eq_signed hy, sign] at same
  apply eq_of_sign_of_magnitude sign
  split at same
  · exact magnitudeBits_eq_of_chars hx hy (List.cons.inj same).2
  · exact magnitudeBits_eq_of_chars hx hy same

end ShortestDecimal

namespace Step

structure IsFinite (s : Step) : Prop where
  operands : ∀ x ∈ s.operands, x.isFinite = true
  result : s.result.isFinite = true

instance : DecidablePred IsFinite := fun s =>
  decidable_of_iff ((∀ x ∈ s.operands, x.isFinite = true) ∧ s.result.isFinite = true)
    ⟨fun h => ⟨h.1, h.2⟩, fun h => ⟨h.operands, h.result⟩⟩

theorem isFinite_of_evaluate {entry : String} {e : Evaluation} (h : evaluate entry = .ok e) :
    ∀ s ∈ e.steps, s.IsFinite := by
  obtain ⟨kept, -, -, reduced⟩ := exists_read_of_evaluate h
  intro s mem
  have sound := (accounts_of_reduce reduced).steps_sound s mem
  exact ⟨sound.operands_finite, sound.result_finite⟩

section Words

/-- The characters of numbers, signs included, and of names. -/
def isWordChar (c : Char) : Bool := isNameChar c || isNumberChar c || c = '-'

theorem isWordChar_of_mem_number {x : Float} (finite : x.isFinite = true) :
    ∀ c ∈ ShortestDecimal.chars x, isWordChar c = true := by
  have magnitude : ∀ d : Decimal, ∀ c ∈ d.chars, isWordChar c = true := by
    intro d c mem
    simp [isWordChar, d.isNumberChar_of_mem_chars mem]
  rw [ShortestDecimal.chars_eq_signed finite]
  split
  · rintro c (_ | ⟨_, mem⟩)
    · rfl
    · exact magnitude _ c mem
  · exact magnitude _

theorem isWordChar_of_mem_name (f : NamedFunction) :
    ∀ c ∈ f.name.toList, isWordChar c = true := by
  intro c mem
  simp [isWordChar, (Token.readable_name f).2 c mem]

theorem number_append_inj {x y : Float} {u v : List Char} (hx : x.isFinite = true)
    (hy : y.isFinite = true) (hu : ∀ c ∈ u.head?, isWordChar c = false)
    (hv : ∀ c ∈ v.head?, isWordChar c = false)
    (same : ShortestDecimal.chars x ++ u = ShortestDecimal.chars y ++ v) : x = y ∧ u = v := by
  obtain ⟨written, behind⟩ := run_append_inj (isWordChar_of_mem_number hx)
    (isWordChar_of_mem_number hy) hu hv same
  exact ⟨ShortestDecimal.eq_of_chars_eq hx hy written, behind⟩

end Words

section Line

variable {s t : Step}

/-- What a step starts with: its left operand, the sign of a negation or the name of a function. -/
def opening : Step → List Char
  | .binary _ left _ _ => ShortestDecimal.chars left
  | .negation _ _ => ['-']
  | .call f _ _ => f.name.toList

def ending : Step → List Char
  | .binary o _ right result =>
    ' ' :: o.symbol :: ' ' :: (ShortestDecimal.chars right ++ chars.equals result)
  | .negation x result | .call _ x result =>
    '(' :: (ShortestDecimal.chars x ++ ')' :: chars.equals result)

theorem chars_eq_opening_append (s : Step) : s.chars = s.opening ++ s.ending := by
  cases s with
  | binary o left right result => simp [chars, opening, ending]
  | negation x result => simp [chars, opening, ending]
  | call f x result => simp [chars, opening, ending]

theorem isWordChar_of_mem_opening (finite : s.IsFinite) :
    ∀ c ∈ s.opening, isWordChar c = true := by
  cases s with
  | binary o left right result =>
    exact isWordChar_of_mem_number (finite.operands left List.mem_cons_self)
  | negation x result => exact List.forall_mem_singleton.mpr rfl
  | call f x result => exact isWordChar_of_mem_name f

theorem head_ending (s : Step) : ∀ c ∈ s.ending.head?, isWordChar c = false := by
  cases s <;> rintro c ⟨⟩ <;> rfl

theorem minus_ne_name (f : NamedFunction) : ['-'] ≠ f.name.toList := by
  intro same
  have letter := (Token.readable_name f).2 '-' (by rw [← same]; exact List.mem_cons_self)
  cases letter

theorem equals_inj {x y : Float} (hx : x.isFinite = true) (hy : y.isFinite = true)
    (same : chars.equals x = chars.equals y) : x = y :=
  ShortestDecimal.eq_of_chars_eq hx hy ((List.append_right_inj [' ', '=', ' ']).mp same)

/-- A number and a result behind it are known, with nothing or a parenthesis between them. -/
theorem number_result_inj {x y r q : Float} (hx : x.isFinite = true) (hy : y.isFinite = true)
    (hr : r.isFinite = true) (hq : q.isFinite = true) (gap : List Char)
    (outside : ∀ c ∈ gap, isWordChar c = false)
    (same : ShortestDecimal.chars x ++ (gap ++ chars.equals r)
      = ShortestDecimal.chars y ++ (gap ++ chars.equals q)) : x = y ∧ r = q := by
  have head : ∀ z, ∀ c ∈ (gap ++ chars.equals z).head?, isWordChar c = false := by
    intro z c mem
    cases gap with
    | nil =>
      cases mem
      rfl
    | cons g gap =>
      cases mem
      exact outside c List.mem_cons_self
  obtain ⟨numbers, behind⟩ := number_append_inj hx hy (head r) (head q) same
  exact ⟨numbers, equals_inj hr hq (List.append_cancel_left behind)⟩

theorem argument_inj {x y r q : Float} (hx : x.isFinite = true) (hy : y.isFinite = true)
    (hr : r.isFinite = true) (hq : q.isFinite = true)
    (same : '(' :: (ShortestDecimal.chars x ++ ')' :: chars.equals r)
      = '(' :: (ShortestDecimal.chars y ++ ')' :: chars.equals q)) : x = y ∧ r = q :=
  number_result_inj hx hy hr hq [')'] (List.forall_mem_singleton.mpr rfl)
    (List.cons.inj same).2

theorem eq_of_chars_eq (hs : s.IsFinite) (ht : t.IsFinite) (same : s.chars = t.chars) : s = t := by
  rw [chars_eq_opening_append, chars_eq_opening_append] at same
  obtain ⟨opened, ended⟩ := run_append_inj (isWordChar_of_mem_opening hs)
    (isWordChar_of_mem_opening ht) (head_ending s) (head_ending t) same
  have operands := hs.operands
  have operands' := ht.operands
  -- Only a left operand is followed by a blank. The minus sign of a negation is told from the names
  -- by itself, and from negative operands by the parenthesis behind it.
  cases s with
  | binary o left right result =>
    cases t with
    | binary o' left' right' result' =>
      obtain ⟨hl, hr⟩ : left.isFinite = true ∧ right.isFinite = true := by
        simpa [Step.operands] using operands
      obtain ⟨hl', hr'⟩ : left'.isFinite = true ∧ right'.isFinite = true := by
        simpa [Step.operands] using operands'
      obtain ⟨symbols, behind⟩ := List.cons.inj (List.cons.inj ended).2
      have numbers : right = right' ∧ result = result' := number_result_inj hr hr' hs.result
        ht.result [] (List.forall_mem_nil _) (List.cons.inj behind).2
      rw [BinaryOperator.eq_of_symbol_eq symbols, ShortestDecimal.eq_of_chars_eq hl hl' opened,
        numbers.1, numbers.2]
    | negation | call => cases (List.cons.inj ended).1
  | negation x result =>
    cases t with
    | binary => cases (List.cons.inj ended).1
    | negation x' result' =>
      have numbers : x = x' ∧ result = result' := argument_inj (operands x List.mem_cons_self)
        (operands' x' List.mem_cons_self) hs.result ht.result ended
      rw [numbers.1, numbers.2]
    | call f x' result' => exact absurd opened (minus_ne_name f)
  | call f x result =>
    cases t with
    | binary => cases (List.cons.inj ended).1
    | negation x' result' => exact absurd opened.symm (minus_ne_name f)
    | call f' x' result' =>
      have numbers : x = x' ∧ result = result' := argument_inj (operands x List.mem_cons_self)
        (operands' x' List.mem_cons_self) hs.result ht.result ended
      rw [NamedFunction.eq_of_name_eq (String.toList_inj.mp opened), numbers.1, numbers.2]

end Line

section Lines

variable {s t : Step} {ss ts : List Step}

theorem lineEnd_notMem_number {x : Float} (finite : x.isFinite = true) :
    '\n' ∉ ShortestDecimal.chars x := by
  intro mem
  cases isWordChar_of_mem_number finite _ mem

theorem lineEnd_notMem_chars (finite : s.IsFinite) : '\n' ∉ s.chars := by
  have symbol : ∀ o : BinaryOperator, '\n' ≠ o.symbol := by
    intro o
    cases o <;> decide
  have opening : '\n' ∉ s.opening := by
    intro mem
    cases isWordChar_of_mem_opening finite _ mem
  have ending : '\n' ∉ s.ending := by
    have operands := finite.operands
    have result := lineEnd_notMem_number finite.result
    cases s with
    | binary o left right result =>
      have right := lineEnd_notMem_number (operands right (by simp [Step.operands]))
      simp_all [Step.ending, chars.equals, Step.result]
    | negation x result | call f x result =>
      have operand := lineEnd_notMem_number (operands x List.mem_cons_self)
      simp_all [Step.ending, chars.equals, Step.result]
  rw [chars_eq_opening_append, List.mem_append]
  exact fun mem => mem.elim opening ending

theorem chars_ne_nil (s : Step) : s.chars ≠ [] := by
  rw [chars_eq_opening_append]
  cases s <;> simp [ending]

def newLines (ss : List Step) : List Char := ss.flatMap fun s => '\n' :: s.chars

theorem newLines_eq (nonempty : ss ≠ []) : newLines ss = '\n' :: linesChars ss := by
  induction ss with
  | nil => exact absurd rfl nonempty
  | cons s ss ih =>
    cases ss with
    | nil => simp [newLines, linesChars, List.intercalate]
    | cons t ss =>
      have joined : linesChars (s :: t :: ss) = s.chars ++ '\n' :: linesChars (t :: ss) := by
        simp [linesChars, List.intercalate]
      rw [joined, ← ih (List.cons_ne_nil t ss)]
      rfl

theorem linesChars_eq_nil_iff : linesChars ss = [] ↔ ss = [] := by
  cases ss with
  | nil => exact iff_of_true rfl rfl
  | cons s ss =>
    have first : s.chars ++ newLines ss = linesChars (s :: ss) :=
      (List.cons.inj (newLines_eq (List.cons_ne_nil s ss))).2
    refine iff_of_false ?_ (List.cons_ne_nil s ss)
    rw [← first]
    exact List.append_ne_nil_of_left_ne_nil s.chars_ne_nil _

/-- The first step is known, and so are the lines behind it. -/
theorem chars_append_inj (hs : s.IsFinite) (ht : t.IsFinite)
    (same : s.chars ++ newLines ss = t.chars ++ newLines ts) :
    s = t ∧ newLines ss = newLines ts := by
  have onLine : ∀ {s : Step}, s.IsFinite → ∀ c ∈ s.chars, decide (c ≠ '\n') = true := by
    intro s finite c mem
    exact decide_eq_true (by rintro rfl; exact lineEnd_notMem_chars finite mem)
  have atEnd : ∀ ss : List Step, ∀ c ∈ (newLines ss).head?, decide (c ≠ '\n') = false := by
    rintro (_ | ⟨s, ss⟩) c ⟨⟩
    rfl
  obtain ⟨first, behind⟩ := run_append_inj (onLine hs) (onLine ht) (atEnd ss) (atEnd ts) same
  exact ⟨eq_of_chars_eq hs ht first, behind⟩

theorem newLines_inj (hs : ∀ s ∈ ss, s.IsFinite) (ht : ∀ t ∈ ts, t.IsFinite)
    (same : newLines ss = newLines ts) : ss = ts := by
  induction ss generalizing ts with
  | nil =>
    cases ts with
    | nil => rfl
    | cons t ts => cases same
  | cons s ss ih =>
    cases ts with
    | nil => cases same
    | cons t ts =>
      obtain ⟨finite, finites⟩ := List.forall_mem_cons.mp hs
      obtain ⟨finite', finites'⟩ := List.forall_mem_cons.mp ht
      obtain ⟨first, behind⟩ := chars_append_inj finite finite' (List.cons.inj same).2
      rw [first, ih finites finites' behind]

/-- The lines of steps tell which steps they are: how many, in which order, each with its operator
or function, and with every bit of its operands and its result. -/
theorem eq_of_lines_eq (hs : ∀ s ∈ ss, s.IsFinite) (ht : ∀ t ∈ ts, t.IsFinite)
    (same : lines ss = lines ts) : ss = ts := by
  have same : linesChars ss = linesChars ts := String.ofList_injective same
  -- An empty text might be no line or one empty line, but no step has an empty line.
  have empty_iff : ss = [] ↔ ts = [] := by
    rw [← linesChars_eq_nil_iff, same, linesChars_eq_nil_iff]
  by_cases empty : ss = []
  · rw [empty, empty_iff.mp empty]
  · apply newLines_inj hs ht
    rw [newLines_eq empty, newLines_eq (mt empty_iff.mpr empty), same]

/-- Signs of numbers, of a difference and of negations side by side. Were only the zeros exchanged,
the lines would differ. -/
theorem eq_of_lines_eq_signs :
    let steps : List Step := [.negation 3 (-3), .negation 0 (-0), .binary .sub (-3) (-0) (-3)]
    let exchanged : List Step := [.negation 3 (-3), .negation (-0) 0, .binary .sub (-3) 0 (-3)]
    (∀ s ∈ steps, s.IsFinite) ∧ (∀ s ∈ exchanged, s.IsFinite) ∧
      lines steps = "-(3) = -3\n-(0) = -0\n-3 - -0 = -3" ∧ lines exchanged ≠ lines steps ∧
      ∃ e, evaluate " -3 - -0 " = .ok e ∧ (∀ s ∈ e.steps, s.IsFinite) ∧
        lines e.steps = lines steps ∧ e.steps = steps := by
  intro steps exchanged
  have finite : ∀ s ∈ steps, s.IsFinite := by decide +kernel
  have finite' : ∀ s ∈ exchanged, s.IsFinite := by decide +kernel
  have differ : exchanged ≠ steps := by decide +kernel
  obtain ⟨e, read, shown⟩ : ∃ e, evaluate " -3 - -0 " = .ok e ∧ lines e.steps = lines steps := by
    refine ⟨⟨-3, [.operator .sub, .number 3, .operator .sub, .operator .sub, .number 0], steps⟩,
      ?_, rfl⟩
    decide +kernel
  exact ⟨finite, finite', by decide +kernel,
    fun same => differ (eq_of_lines_eq finite' finite same), e, read, isFinite_of_evaluate read,
    shown, eq_of_lines_eq (isFinite_of_evaluate read) finite shown⟩

end Lines

end Step

end Calculator

import Calculator.Evaluation
import Calculator.RoundedDecimal
import Calculator.Proofs.NearestDistance
import Calculator.Proofs.TokenLines

/-!
# Entering a rounded number again

A decimal that is written is an entry of its own, with or without a sign, and is read as the number
nearest to it. For the written form of a rounded number that is a number with the same written form.
-/
namespace Calculator
open Binary64 Lexeme

namespace Decimal

theorem ofChars_chars (d : Decimal) : Token.ofChars d.chars = .ok [.number d.toFloat] := by
  have whole : Lexeme.ofChars d.chars = [d.chars] := isLexeme_chars d
  rw [Token.ofChars, whole, List.mapM_cons, Token.ofLexeme_decimal]
  rfl

theorem ofChars_minus_chars (d : Decimal) :
    Token.ofChars ('-' :: d.chars) = .ok [.operator .sub, .number d.toFloat] := by
  have apart : Apart ['-'] d.chars := by
    rintro a ⟨rfl⟩ b -
    rfl
  have sign : Token.ofChars ['-'] = .ok [.operator .sub] :=
    Token.ofChars_chars (t := .operator .sub) trivial
  have joined := Token.ofChars_append apart
  rw [sign, ofChars_chars] at joined
  exact joined

theorem isAccepted_of_mem_chars {d : Decimal} {c : Char} (h : c ∈ d.chars) :
    Alphabet.isAccepted c = true := by
  simp [Alphabet.isAccepted, isNumberChar_of_mem_chars h]

end Decimal

section Entries

theorem reduce_number {x : Float} (finite : x.isFinite = true) :
    reduce [.number x] = .ok ⟨x, []⟩ := by
  simp only [reduce, Reading.readAll, Reading.read, Reading.start, Reading.readOperand,
    Reading.takeNumber, requireFinite, finite, if_true]
  rfl

theorem reduce_minus_number {x : Float} (finite : x.isFinite = true) :
    reduce [.operator .sub, .number x] = .ok ⟨-x, [Step.ofNegation x]⟩ := by
  simp only [reduce, Reading.readAll, Reading.read, Reading.start, Reading.readOperand,
    Reading.takeNumber, requireFinite, finite, if_true]
  rfl

theorem evaluate_decimal {d : Decimal} (finite : d.toFloat.isFinite = true) :
    evaluate (String.ofList d.chars) = .ok ⟨d.toFloat, [.number d.toFloat], []⟩ := by
  have cleaned : Alphabet.clean (String.ofList d.chars).toList = .ok d.chars := by
    rw [String.toList_ofList]
    exact Alphabet.clean_of_accepted fun c mem => Decimal.isAccepted_of_mem_chars mem
  rw [evaluate_of_read cleaned d.ofChars_chars, reduce_number finite]
  rfl

theorem evaluate_minus_decimal {d : Decimal} (finite : d.toFloat.isFinite = true) :
    evaluate (String.ofList ('-' :: d.chars))
      = .ok ⟨-d.toFloat, [.operator .sub, .number d.toFloat], [Step.ofNegation d.toFloat]⟩ := by
  have cleaned : Alphabet.clean (String.ofList ('-' :: d.chars)).toList = .ok ('-' :: d.chars) := by
    rw [String.toList_ofList]
    apply Alphabet.clean_of_accepted
    rintro c (_ | ⟨_, mem⟩)
    · rfl
    · exact Decimal.isAccepted_of_mem_chars mem
  rw [evaluate_of_read cleaned d.ofChars_minus_chars, reduce_minus_number finite]
  rfl

theorem evaluate_signed_decimal {d : Decimal} (finite : d.toFloat.isFinite = true) (minus : Prop)
    [Decidable minus] :
    ∃ e, evaluate (String.ofList (if minus then '-' :: d.chars else d.chars)) = .ok e ∧
      e.value.isFinite = true ∧ magnitudeBits e.value = magnitudeBits d.toFloat ∧
      (isNegative e.value = true ↔ minus) := by
  have unsigned : isNegative d.toFloat = false := isNegative_nearest false _ _
  by_cases signed : minus
  · rw [if_pos signed]
    refine ⟨_, evaluate_minus_decimal finite, isFinite_neg finite, magnitudeBits_neg finite, ?_⟩
    simp [isNegative_neg finite, unsigned, signed]
  · rw [if_neg signed]
    refine ⟨_, evaluate_decimal finite, finite, rfl, ?_⟩
    simp [unsigned, signed]

end Entries

namespace RoundedDecimal

theorem text_of_isFinite {x : Float} (finite : x.isFinite = true) (places : Nat) :
    text x places = String.ofList (finiteChars x places) := by
  simp only [text, isNaN_of_isFinite finite, isInf_of_isFinite finite, Bool.false_eq_true, if_false]

theorem magnitude_congr {x y : Float} (same : magnitudeBits x = magnitudeBits y) (places : Nat) :
    magnitude x places = magnitude y places := by
  rw [magnitude, magnitude, quanta, quanta, same]

/-- The number nearest to a rounded magnitude is finite and has the same rounded magnitude. -/
theorem magnitude_toFloat {x : Float} (finite : x.isFinite = true) (places : Nat) :
    (magnitude x places).toFloat.isFinite = true ∧
      magnitude (magnitude x places).toFloat places = magnitude x places := by
  obtain ⟨n, rounded⟩ : ∃ n, roundHalfEven (quanta x * 10 ^ places) resolution = n := ⟨_, rfl⟩
  have written : magnitude x places = ⟨n, places⟩ := by rw [magnitude, rounded]
  have word : magnitudeBits (Decimal.toFloat ⟨n, places⟩) = nearestBits n (10 ^ places) :=
    magnitudeBits_nearest false _ _
  have tens : 0 < 10 ^ places := Nat.pow_pos (by decide)
  obtain ⟨below, again⟩ := roundHalfEven_nearestBits tens ((isFinite_iff x).mp finite) rounded
  rw [written]
  constructor
  · rw [isFinite_iff, word]
    exact below
  · rw [magnitude, quanta, word, again]

/-- A plain decimal, or one with a minus sign in front that is not zero. -/
inductive Written : List Char → Prop
  | unsigned {text : List Char} (plain : Decimal.Plain text) : Written text
  | negative {text : List Char} (plain : Decimal.Plain text)
      (nonzero : ∃ c ∈ text, c.isDigit = true ∧ c ≠ '0') : Written ('-' :: text)

theorem written_text {x : Float} (finite : x.isFinite = true) (places : Nat) :
    Written (text x places).toList := by
  rw [text_of_isFinite finite, String.toList_ofList, finiteChars]
  split
  · next signed => exact .negative (Decimal.plain_chars _) (Decimal.exists_nonzero_digit signed.2)
  · exact .unsigned (Decimal.plain_chars _)

theorem Written.cases_cons {c : Char} {cs : List Char} (h : Written (c :: cs)) :
    c.isDigit = true ∨ c = '-' ∧ (∀ d ∈ cs.head?, d.isDigit = true) ∧ ∃ d ∈ cs, d ≠ '0' := by
  cases h with
  | unsigned plain => exact .inl (plain.head_digit c rfl)
  | negative plain nonzero =>
    obtain ⟨d, mem, -, other⟩ := nonzero
    exact .inr ⟨rfl, plain.head_digit, d, mem, other⟩

theorem Written.not_special {s : String} (h : Written s.toList) :
    s ∉ ["NaN", "inf", "-inf", "-0"] := by
  intro special
  simp only [List.mem_cons, List.not_mem_nil, or_false] at special
  obtain rfl | rfl | rfl | rfl := special
  · obtain digit | ⟨sign, -⟩ := h.cases_cons
    · cases digit
    · cases sign
  · obtain digit | ⟨sign, -⟩ := h.cases_cons
    · cases digit
    · cases sign
  · obtain digit | ⟨-, digit, -⟩ := h.cases_cons
    · cases digit
    · cases digit 'i' rfl
  · obtain digit | ⟨-, -, d, mem, nonzero⟩ := h.cases_cons
    · cases digit
    · exact nonzero (List.mem_singleton.mp mem)

/-- A number is written after its rounded magnitude, and after its sign while that is not zero. -/
theorem text_congr {x y : Float} {places : Nat} (hx : x.isFinite = true) (hy : y.isFinite = true)
    (same : magnitude x places = magnitude y places)
    (sign : (magnitude y places).units ≠ 0 → isNegative x = isNegative y) :
    text x places = text y places := by
  rw [text_of_isFinite hx, text_of_isFinite hy, finiteChars, finiteChars, same]
  by_cases zero : (magnitude y places).units = 0
  · simp [zero]
  · simp [zero, sign zero]

end RoundedDecimal

/-- The written form of a rounded number is an entry, and its value has the same written form. -/
theorem evaluate_roundedText {v : Float} (finite : v.isFinite = true) (places : Nat) :
    ∃ e, evaluate (RoundedDecimal.text v places) = .ok e ∧ e.value.isFinite = true ∧
      RoundedDecimal.text e.value places = RoundedDecimal.text v places := by
  obtain ⟨readFinite, again⟩ := RoundedDecimal.magnitude_toFloat finite places
  obtain ⟨e, read, finite', word, sign⟩ := evaluate_signed_decimal readFinite
    (isNegative v = true ∧ (RoundedDecimal.magnitude v places).units ≠ 0)
  have same : RoundedDecimal.magnitude e.value places = RoundedDecimal.magnitude v places :=
    (RoundedDecimal.magnitude_congr word places).trans again
  refine ⟨e, ?_, finite', RoundedDecimal.text_congr finite' finite same fun nonzero => ?_⟩
  · rw [RoundedDecimal.text_of_isFinite finite]
    exact read
  · rw [Bool.eq_iff_iff, sign]
    exact and_iff_left nonzero

theorem evaluate_roundedText_half :
    (-0.125 : Float).isFinite = true ∧ RoundedDecimal.text (-0.125) 2 = "-0.12" ∧
      ∃ e, evaluate (RoundedDecimal.text (-0.125) 2) = .ok e ∧ e.value.isFinite = true ∧
        RoundedDecimal.text e.value 2 = RoundedDecimal.text (-0.125) 2 := by
  have finite : (-0.125 : Float).isFinite = true := by decide +kernel
  exact ⟨finite, by decide +kernel, evaluate_roundedText finite 2⟩

end Calculator

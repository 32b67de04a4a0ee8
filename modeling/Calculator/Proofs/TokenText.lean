import Calculator.Alphabet
import Calculator.Token
import Calculator.Proofs.DecimalText
import Calculator.Proofs.LexemeBoundaries
import Calculator.Proofs.ReductionRuns

/-! # Texts of tokens

What a token is written as is one lexeme, and that lexeme is read as the token. What tokens a text
may be read as, and that texts are read apart wherever they may be cut apart.
-/
namespace Calculator.Decimal
open Lexeme

theorem isNumberChar_of_mem_chars {d : Decimal} {c : Char} (h : c ∈ d.chars) :
    isNumberChar c = true := by
  by_cases none : d.fractionChars = []
  · rw [chars_of_no_fraction none] at h
    exact isNumberChar_of_isDigit (isDigit_of_mem_wholeChars h)
  · rw [chars_of_fraction none, List.mem_append, List.mem_cons] at h
    obtain whole | rfl | fraction := h
    · exact isNumberChar_of_isDigit (isDigit_of_mem_wholeChars whole)
    · rfl
    · exact isNumberChar_of_isDigit (isDigit_of_mem_fractionChars fraction)

theorem chars_ne_nil (d : Decimal) : d.chars ≠ [] := by
  have whole := wholeChars_ne_nil d
  by_cases none : d.fractionChars = []
  · rw [chars_of_no_fraction none]
    exact whole
  · rw [chars_of_fraction none]
    exact List.append_ne_nil_of_left_ne_nil whole _

theorem isLexeme_chars (d : Decimal) : IsLexeme d.chars := by
  apply isLexeme_number (chars_ne_nil d) fun c h => isNumberChar_of_mem_chars h
  by_cases none : d.fractionChars = []
  · rw [chars_of_no_fraction none]
    exact cutNumber_digits fun c h => isDigit_of_mem_wholeChars h
  · rw [chars_of_fraction none]
    exact cutNumber_pointed fun c h => isDigit_of_mem_digits h

end Calculator.Decimal

namespace Calculator.Token
open Lexeme Binary64

/-- What a text without an overflowing number may be read as. -/
def Readable : Token → Prop
  | .number x => x.isFinite = true ∧ isNegative x = false
  | .function name => name.toList ≠ [] ∧ ∀ c ∈ name.toList, isNameChar c = true
  | _ => True

instance : DecidablePred Readable
  | .number x => inferInstanceAs (Decidable (x.isFinite = true ∧ isNegative x = false))
  | .function name =>
    decidable_of_iff (name.toList ≠ [] ∧ name.toList.all isNameChar = true)
      (and_congr_right fun _ => List.all_eq_true)
  | .operator _ | .leftParen | .rightParen => .isTrue trivial

theorem readable_name (f : NamedFunction) : Readable (.function f.name) := by
  rcases f with _ | _ | _ | _ | _ <;> decide

section Reading

/-- Apart from the power of two stars, the first character shows what a lexeme stands for. -/
theorem ofLexeme_cons {c : Char} {cs : List Char} (unpaired : c :: cs ≠ ['*', '*']) :
    ofLexeme (c :: cs) =
      if isNameChar c then .ok (.function (String.ofList (c :: cs)))
      else if isNumberChar c then
        match Decimal.ofChars? (c :: cs) with
        | some d => .ok (.number d.toFloat)
        | none => .error .malformed
      else if c = '(' then .ok .leftParen
      else if c = ')' then .ok .rightParen
      else
        match BinaryOperator.ofSymbol? c with
        | some o => .ok (.operator o)
        | none => .error (.strayCharacter c) := by
  unfold ofLexeme
  split
  · next h => cases h
  · next h => exact absurd h unpaired
  · next h =>
    obtain ⟨rfl, rfl⟩ := List.cons.inj h
    rfl

theorem ofLexeme_name {s : List Char} (nonempty : s ≠ []) (names : ∀ c ∈ s, isNameChar c = true) :
    ofLexeme s = .ok (.function (String.ofList s)) := by
  cases s with
  | nil => exact absurd rfl nonempty
  | cons c cs =>
    have first := names c List.mem_cons_self
    have unpaired : c :: cs ≠ ['*', '*'] := by
      rintro ⟨⟩
      cases first
    rw [ofLexeme_cons unpaired, if_pos first]

theorem ofLexeme_number {c : Char} (number : isNumberChar c = true) (cs : List Char) :
    ofLexeme (c :: cs) = match Decimal.ofChars? (c :: cs) with
      | some d => .ok (.number d.toFloat)
      | none => .error .malformed := by
  have unpaired : c :: cs ≠ ['*', '*'] := by
    rintro ⟨⟩
    cases number
  rw [ofLexeme_cons unpaired, if_neg (by simp [not_name_of_number number]), if_pos number]

theorem ofLexeme_decimal (d : Decimal) : ofLexeme d.chars = .ok (.number d.toFloat) := by
  obtain ⟨d', read, value⟩ := d.ofChars?_chars_value
  obtain ⟨c, cs, first⟩ := List.exists_cons_of_ne_nil d.chars_ne_nil
  have number : isNumberChar c = true := by
    apply Decimal.isNumberChar_of_mem_chars (d := d)
    rw [first]
    exact List.mem_cons_self
  rw [first, ofLexeme_number number, ← first, read, ← Decimal.toFloat_congr value]

theorem ofLexeme_operator (o : BinaryOperator) : ofLexeme [o.symbol] = .ok (.operator o) := by
  cases o <;> rfl

theorem isLexeme_operator (o : BinaryOperator) : IsLexeme [o.symbol] := by
  cases o <;> exact isLexeme_of_cut (by decide) rfl

end Reading

section Writing

theorem isLexeme_chars {t : Token} (h : t.Readable) : IsLexeme t.chars := by
  cases t with
  | number x =>
    rw [chars, ShortestDecimal.chars_of_isFinite h.1 h.2]
    exact Decimal.isLexeme_chars _
  | operator o => exact isLexeme_operator o
  | function name => exact isLexeme_name h.1 h.2
  | leftParen => exact isLexeme_of_cut (by decide) rfl
  | rightParen => exact isLexeme_of_cut (by decide) rfl

theorem ofLexeme_chars {t : Token} (h : t.Readable) : ofLexeme t.chars = .ok t := by
  cases t with
  | number x =>
    rw [chars, ShortestDecimal.chars_of_isFinite h.1 h.2, ofLexeme_decimal,
      ShortestDecimal.toFloat_ofBits h.1 h.2]
  | operator o => exact ofLexeme_operator o
  | function name =>
    rw [chars, ofLexeme_name h.1 h.2, String.ofList_toList]
  | leftParen => rfl
  | rightParen => rfl

theorem ofChars_nil : ofChars [] = .ok [] := by
  rw [ofChars, Lexeme.ofChars_nil, List.mapM_nil]
  rfl

theorem ofChars_blank {c : Char} (blank : Blank.isBlank c = true) (cs : List Char) :
    ofChars (c :: cs) = ofChars cs := by
  rw [ofChars, ofChars, Lexeme.ofChars_blank blank]

theorem ofChars_cut {c : Char} (blank : Blank.isBlank c = false) (cs : List Char) :
    ofChars (c :: cs) = do
      let t ← ofLexeme (Lexeme.cut c cs).1
      return t :: (← ofChars (Lexeme.cut c cs).2) := by
  rw [ofChars, Lexeme.ofChars_cut blank, List.mapM_cons]
  rfl

theorem ofChars_append {s t : List Char} (apart : Apart s t) :
    ofChars (s ++ t) = do return (← ofChars s) ++ (← ofChars t) := by
  rw [ofChars, Lexeme.ofChars_append apart, List.mapM_append]
  rfl

theorem ofChars_chars {t : Token} (h : t.Readable) : ofChars t.chars = .ok [t] := by
  have whole : Lexeme.ofChars t.chars = [t.chars] := isLexeme_chars h
  rw [ofChars, whole, List.mapM_cons, ofLexeme_chars h]
  rfl

end Writing

section Readable

theorem readable_of_ofLexeme_sign {c : Char} {cs : List Char} {t : Token}
    (name : ¬isNameChar c = true) (number : ¬isNumberChar c = true)
    (h : ofLexeme (c :: cs) = .ok t) : t.Readable := by
  by_cases paired : c :: cs = ['*', '*']
  · rw [paired] at h
    cases h
    trivial
  · rw [ofLexeme_cons paired, if_neg name, if_neg number] at h
    split at h
    · cases h
      trivial
    split at h
    · cases h
      trivial
    split at h
    · cases h
      trivial
    · cases h

theorem readable_of_ofLexeme {l : List Char} {t : Token} (lexeme : IsLexeme l)
    (h : ofLexeme l = .ok t) (finite : ∀ x, t = .number x → x.isFinite = true) : t.Readable := by
  obtain ⟨c, cs, rfl⟩ := List.exists_cons_of_ne_nil lexeme.ne_nil
  by_cases name : isNameChar c = true
  · have names := lexeme.names name
    rw [ofLexeme_name (List.cons_ne_nil c cs) names] at h
    cases h
    rw [Readable, String.toList_ofList]
    exact ⟨List.cons_ne_nil c cs, names⟩
  by_cases number : isNumberChar c = true
  · rw [ofLexeme_number number] at h
    cases read : Decimal.ofChars? (c :: cs) with
    | none =>
      rw [read] at h
      cases h
    | some d =>
      rw [read] at h
      cases h
      exact ⟨finite _ rfl, isNegative_nearest _ _ _⟩
  · exact readable_of_ofLexeme_sign name number h

theorem readable_of_ofChars {s : List Char} {ts : List Token} (h : ofChars s = .ok ts)
    (finite : ∀ x, .number x ∈ ts → x.isFinite = true) : ∀ t ∈ ts, t.Readable := by
  intro t mem
  obtain ⟨l, lexeme, read⟩ := exists_of_mem_mapM h mem
  apply readable_of_ofLexeme (isLexeme_of_mem_ofChars lexeme) read
  rintro x rfl
  exact finite x mem

end Readable

end Calculator.Token

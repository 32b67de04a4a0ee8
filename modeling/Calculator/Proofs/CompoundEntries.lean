import Calculator.Proofs.GroupedReduction
import Calculator.Proofs.TokenLines

/-!
# Entries made of entries

Entries that have a value can be put in parentheses, joined by an operator, and called by a function
or negated: neither blanks nor lexemes of one part ever reach into another one. The compound entry
does the steps of its parts in order and one step more.
-/
namespace Calculator
open Lexeme

def BinaryOperator.spellings (o : BinaryOperator) : List String :=
  String.singleton o.symbol :: if o = .pow then ["**"] else []

/-- The characters of an entry are accepted, and without blanks they are read as the tokens. -/
def Reads (entry : List Char) (ts : List Token) : Prop :=
  ∃ kept, Alphabet.clean entry = .ok kept ∧ Token.ofChars kept = .ok ts

section Reads

variable {cs ds : List Char} {ts us : List Token} {p : Token}

theorem apart_paren (hp : p = .leftParen ∨ p = .rightParen) (s t : List Char) :
    Apart s p.chars ∧ Apart p.chars t := by
  obtain ⟨c, written, name, number, star⟩ : ∃ c, p.chars = [c] ∧ isNameChar c = false ∧
      isNumberChar c = false ∧ c ≠ '*' := by
    obtain rfl | rfl := hp
    · exact ⟨'(', rfl, by decide⟩
    · exact ⟨')', rfl, by decide⟩
  rw [written]
  constructor
  · rintro a - b ⟨rfl⟩
    simp [fuses, name, number, star]
  · rintro a ⟨rfl⟩ b -
    simp [fuses, name, number, star]

theorem Reads.nil : Reads [] [] := ⟨[], rfl, Token.ofChars_nil⟩

theorem Reads.token {t : Token} (h : t.Readable) : Reads t.chars [t] :=
  ⟨t.chars, Alphabet.clean_of_accepted fun _ mem => Token.isAccepted_of_mem_chars h mem,
    Token.ofChars_chars h⟩

theorem Reads.power : Reads ['*', '*'] [.operator .pow] := by
  have lexeme : IsLexeme ['*', '*'] := isLexeme_of_cut (by decide) rfl
  refine ⟨['*', '*'], by decide, ?_⟩
  rw [Token.ofChars, lexeme]
  rfl

/-- What stands on either side of a parenthesis is read on its own. -/
theorem Reads.paren (hp : p = .leftParen ∨ p = .rightParen) (hs : Reads cs ts)
    (ht : Reads ds us) : Reads (cs ++ p.chars ++ ds) (ts ++ p :: us) := by
  have readable : p.Readable := by
    obtain rfl | rfl := hp
    · trivial
    · trivial
  have between : Alphabet.clean p.chars = .ok p.chars :=
    Alphabet.clean_of_accepted fun _ mem => Token.isAccepted_of_mem_chars readable mem
  have nonempty := (Token.isLexeme_chars readable).ne_nil
  obtain ⟨ks, cleaned, read⟩ := hs
  obtain ⟨ls, cleaned', read'⟩ := ht
  have kept := Alphabet.clean_append (Alphabet.clean_append cleaned between) cleaned'
  refine ⟨ks ++ p.chars ++ ls, kept, ?_⟩
  rw [List.append_assoc,
    Token.ofChars_append ((apart_paren hp ks []).1.append_right nonempty ls),
    Token.ofChars_append (apart_paren hp [] ls).2, read, Token.ofChars_chars readable, read']
  rfl

theorem Reads.of_evaluate {s : String} {a : Evaluation} (h : evaluate s = .ok a) :
    Reads s.toList a.tokens := by
  obtain ⟨kept, cleaned, read, -⟩ := exists_read_of_evaluate h
  exact ⟨kept, cleaned, read⟩

theorem Reads.of_mem_spellings {o : BinaryOperator} {sign : String} (h : sign ∈ o.spellings) :
    Reads sign.toList [.operator o] := by
  obtain rfl | power := List.mem_cons.mp h
  · rw [String.toList_singleton]
    exact Reads.token (t := .operator o) trivial
  · split at power
    · next pow =>
      rw [List.mem_singleton.mp power, pow]
      exact Reads.power
    · cases power

theorem Reads.name (f : NamedFunction) : Reads f.name.toList [.function f.name] :=
  Reads.token (Token.readable_name f)

theorem Reads.behind {before s : String} {t : Token} (ht : Reads before.toList [t])
    (hs : Reads s.toList ts) :
    Reads (before ++ "(" ++ s ++ ")").toList (t :: Token.grouped ts) := by
  have closed := (ht.paren (.inl rfl) hs).paren (.inr rfl) .nil
  simpa [Token.grouped, Token.chars, String.toList_append] using closed

theorem Reads.joined {o : BinaryOperator} {s sign t : String} (hs : Reads s.toList ts)
    (ho : Reads sign.toList [.operator o]) (ht : Reads t.toList us) :
    Reads ("(" ++ s ++ ")" ++ sign ++ "(" ++ t ++ ")").toList
      (Token.grouped ts ++ .operator o :: Token.grouped us) := by
  have left := (Reads.nil.paren (.inl rfl) hs).paren (.inr rfl) ho
  have both := (left.paren (.inl rfl) ht).paren (.inr rfl) .nil
  simpa [Token.grouped, Token.chars, String.toList_append] using both

end Reads

section Lines

variable {ts us : List Token}

theorem tokens_ne_nil {ts : List Token} {a : Reduction} (h : reduce ts = .ok a) : ts ≠ [] := by
  rintro rfl
  cases h

theorem lineChars_grouped (ht : ts ≠ []) :
    Token.lineChars (Token.grouped ts) = '(' :: ' ' :: (Token.lineChars ts ++ [' ', ')']) := by
  have behind := Token.lineChars_append ht (List.cons_ne_nil Token.rightParen [])
  have whole := Token.lineChars_append (List.cons_ne_nil Token.leftParen [])
    (List.append_ne_nil_of_left_ne_nil ht [.rightParen])
  rw [behind] at whole
  exact whole

theorem lineChars_cons_grouped (t : Token) (ht : ts ≠ []) :
    Token.lineChars (t :: Token.grouped ts)
      = t.chars ++ ' ' :: '(' :: ' ' :: (Token.lineChars ts ++ [' ', ')']) := by
  rw [← lineChars_grouped ht]
  exact Token.lineChars_cons_cons t .leftParen _

theorem line_cons_grouped (t : Token) (ht : ts ≠ []) :
    Token.line (t :: Token.grouped ts)
      = String.ofList t.chars ++ " ( " ++ Token.line ts ++ " )" := by
  rw [← String.toList_inj, Token.line, Token.line, lineChars_cons_grouped t ht]
  simp

theorem line_joined (o : BinaryOperator) (ht : ts ≠ []) (hu : us ≠ []) :
    Token.line (Token.grouped ts ++ .operator o :: Token.grouped us)
      = "( " ++ Token.line ts ++ " ) " ++ String.singleton o.symbol ++ " ( " ++ Token.line us
        ++ " )" := by
  have left : Token.grouped ts ≠ [] := List.cons_ne_nil _ _
  have right : .operator o :: Token.grouped us ≠ [] := List.cons_ne_nil _ _
  rw [← String.toList_inj, Token.line, Token.line, Token.line, Token.lineChars_append left right,
    lineChars_grouped ht, lineChars_cons_grouped _ hu]
  simp [Token.chars]

end Lines

/-- What an entry made of entries comes to. It takes the steps of its parts in order and then the
last step, which gives its value or has none. -/
def ComesTo (entry : String) (parts : List Evaluation) (last : Except DomainFault Step)
    (line : String) : Prop :=
  match last with
  | .ok step => ∃ e, evaluate entry = .ok e ∧ e.value = step.result ∧
      e.steps = parts.flatMap Evaluation.steps ++ [step] ∧
      e.stepTexts = parts.flatMap Evaluation.stepTexts ++ [step.text] ∧ e.tokenLine = line
  | .error fault => evaluate entry = .error (.domain fault)

theorem comesTo_of_reads {entry line : String} {ts : List Token} {parts : List Evaluation}
    {last : Except DomainFault Step} (read : Reads entry.toList ts)
    (reduced : reduce ts = Reduction.endingWith (parts.flatMap Evaluation.steps) last)
    (written : Token.line ts = line) : ComesTo entry parts last line := by
  obtain ⟨kept, cleaned, read⟩ := read
  have evaluated := evaluate_of_read cleaned read
  rw [reduced] at evaluated
  cases last with
  | ok step =>
    refine ⟨_, evaluated, rfl, rfl, ?_, written⟩
    rw [Evaluation.stepTexts, List.map_append, List.map_flatMap]
    rfl
  | error fault => exact evaluated

/-- Entries with a value make up further entries: two of them in parentheses with an operator
between, one in parentheses behind the name of a function, and one in parentheses behind a minus
sign. Each does the steps of its parts in order, then its own step on their values. -/
theorem evaluate_compound {s t : String} {a b : Evaluation} (hs : evaluate s = .ok a)
    (ht : evaluate t = .ok b) :
    (∀ o : BinaryOperator, ∀ sign ∈ o.spellings,
      ComesTo ("(" ++ s ++ ")" ++ sign ++ "(" ++ t ++ ")") [a, b]
        (Step.ofOperator o a.value b.value)
        ("( " ++ a.tokenLine ++ " ) " ++ String.singleton o.symbol ++ " ( " ++ b.tokenLine
          ++ " )")) ∧
      (∀ name f, NamedFunction.ofName? name = some f →
        ComesTo (name ++ "(" ++ s ++ ")") [a] (Step.ofFunction f a.value)
          (name ++ " ( " ++ a.tokenLine ++ " )")) ∧
      ComesTo ("-(" ++ s ++ ")") [a] (.ok (Step.ofNegation a.value))
        ("- ( " ++ a.tokenLine ++ " )") := by
  obtain ⟨-, -, -, ha⟩ := exists_read_of_evaluate hs
  obtain ⟨-, -, -, hb⟩ := exists_read_of_evaluate ht
  have left := tokens_ne_nil ha
  have right := tokens_ne_nil hb
  have readS := Reads.of_evaluate hs
  refine ⟨fun o sign spelled => ?_, fun name f named => ?_, ?_⟩
  · have read := readS.joined (.of_mem_spellings spelled) (.of_evaluate ht)
    refine comesTo_of_reads read ?_ (line_joined o left right)
    simpa using reduce_joined ha hb o
  · rw [← NamedFunction.name_of_ofName? named]
    refine comesTo_of_reads ((Reads.name f).behind readS) ?_ ?_
    · simpa using reduce_called ha f
    · rw [line_cons_grouped _ left, Token.chars, String.ofList_toList]
      rfl
  · have sign : "-(" = "-" ++ "(" := by decide
    have minus : Reads "-".toList [.operator .sub] := Reads.token (t := .operator .sub) trivial
    rw [sign]
    refine comesTo_of_reads (minus.behind readS) ?_ (line_cons_grouped _ left)
    simpa using reduce_negated ha

theorem evaluate_compound_quotient :
    let s := " 1.5 * 2"
    let t := "- .5"
    let a : Evaluation := ⟨3, [.number 1.5, .operator .mul, .number 2], [.binary .mul 1.5 2 3]⟩
    let b : Evaluation := ⟨-0.5, [.operator .sub, .number 0.5], [.negation 0.5 (-0.5)]⟩
    evaluate s = .ok a ∧ evaluate t = .ok b ∧ "/" ∈ BinaryOperator.div.spellings ∧
      NamedFunction.ofName? "sqrt" = some .sqrt ∧
      Step.ofOperator .div a.value b.value = .ok (.binary .div 3 (-0.5) (-6)) ∧
      ComesTo ("(" ++ s ++ ")" ++ "/" ++ "(" ++ t ++ ")") [a, b]
        (Step.ofOperator .div a.value b.value)
        ("( " ++ a.tokenLine ++ " ) " ++ String.singleton BinaryOperator.div.symbol ++ " ( "
          ++ b.tokenLine ++ " )") ∧
      ComesTo ("sqrt" ++ "(" ++ s ++ ")") [a] (Step.ofFunction .sqrt a.value)
        ("sqrt" ++ " ( " ++ a.tokenLine ++ " )") ∧
      ComesTo ("-(" ++ s ++ ")") [a] (.ok (Step.ofNegation a.value))
        ("- ( " ++ a.tokenLine ++ " )") := by
  intro s t a b
  have hs : evaluate s = .ok a := by decide +kernel
  have ht : evaluate t = .ok b := by decide +kernel
  have spelled : "/" ∈ BinaryOperator.div.spellings := by decide
  have named : NamedFunction.ofName? "sqrt" = some .sqrt := by decide
  obtain ⟨joined, called, negated⟩ := evaluate_compound hs ht
  exact ⟨hs, ht, spelled, named, by decide +kernel, joined .div "/" spelled,
    called "sqrt" .sqrt named, negated⟩

end Calculator

import Calculator.Proofs.TokenText

/-! # Lines of tokens

The line of a list of readable tokens is an entry: it holds accepted characters and blanks only, and
without its blanks it is the written tokens one behind the other. With its blanks it is read as the
tokens again, whichever of them stand side by side.
-/
namespace Calculator.Alphabet
open Blank Lexeme

theorem symbol_of_ofSymbol? {c : Char} {o : BinaryOperator}
    (h : BinaryOperator.ofSymbol? c = some o) : o.symbol = c := by
  simpa using List.find?_some h

theorem isAccepted_symbol (o : BinaryOperator) : isAccepted o.symbol = true := by
  cases o <;> decide

theorem not_isBlank_of_isAccepted {c : Char} (h : isAccepted c = true) : isBlank c = false := by
  rw [isAccepted, Bool.or_eq_true, Bool.or_eq_true] at h
  obtain (name | number) | sign := h
  · exact not_isBlank_of_isNameChar name
  · exact not_isBlank_of_isNumberChar number
  · simp only [isSign, Bool.or_eq_true, decide_eq_true_eq, Option.isSome_iff_exists] at sign
    obtain (rfl | rfl) | ⟨o, read⟩ := sign
    · decide
    · decide
    · rw [← symbol_of_ofSymbol? read]
      cases o <;> decide

theorem cut_refused {c : Char} (refused : isAccepted c = false) (cs : List Char) :
    cut c cs = ([c], cs) := by
  have star : c ≠ '*' := by
    rintro rfl
    cases refused
  simp only [isAccepted, Bool.or_eq_false_iff] at refused
  exact cut_single refused.1.1 refused.1.2 fun first => absurd first star

theorem clean_eq_ok {cs kept : List Char} :
    clean cs = .ok kept ↔
      cs.filter (fun c => !isBlank c) = kept ∧ ∀ c ∈ kept, isAccepted c = true := by
  unfold clean
  dsimp only
  cases found : (cs.filter fun c => !isBlank c).find? fun c => !isAccepted c with
  | none =>
    have accepted := List.find?_eq_none.mp found
    constructor
    · intro h
      cases h
      exact ⟨rfl, fun c mem => by simpa using accepted c mem⟩
    · rintro ⟨rfl, -⟩
      rfl
  | some c =>
    have stray := List.find?_some found
    have mem := List.mem_of_find?_eq_some found
    constructor
    · intro h
      cases h
    · rintro ⟨rfl, accepted⟩
      rw [accepted c mem] at stray
      cases stray

theorem clean_append {cs ds ks ls : List Char} (hs : clean cs = .ok ks) (ht : clean ds = .ok ls) :
    clean (cs ++ ds) = .ok (ks ++ ls) := by
  obtain ⟨rfl, first⟩ := clean_eq_ok.mp hs
  obtain ⟨rfl, second⟩ := clean_eq_ok.mp ht
  refine clean_eq_ok.mpr ⟨List.filter_append .., fun c mem => ?_⟩
  obtain mem | mem := List.mem_append.mp mem
  · exact first c mem
  · exact second c mem

theorem clean_of_accepted {cs : List Char} (accepted : ∀ c ∈ cs, isAccepted c = true) :
    clean cs = .ok cs := by
  apply clean_eq_ok.mpr
  refine ⟨List.filter_eq_self.mpr fun c mem => ?_, accepted⟩
  rw [not_isBlank_of_isAccepted (accepted c mem)]
  rfl

end Calculator.Alphabet

namespace Calculator.Token
open Blank Lexeme Alphabet

theorem ofLexeme_refused {c : Char} (refused : isAccepted c = false) :
    ofLexeme [c] = .error (.strayCharacter c) := by
  simp only [isAccepted, isSign, Bool.or_eq_false_iff, decide_eq_false_iff_not,
    Option.isSome_eq_false_iff, Option.isNone_iff_eq_none] at refused
  obtain ⟨⟨name, number⟩, ⟨left, right⟩, symbol⟩ := refused
  rw [ofLexeme_cons (by simp)]
  simp [name, number, left, right, symbol]

theorem ofChars_refused {c : Char} (blank : isBlank c = false) (refused : isAccepted c = false)
    (cs : List Char) : ofChars (c :: cs) = .error (.strayCharacter c) := by
  rw [ofChars_cut blank, cut_refused refused, ofLexeme_refused refused]
  rfl

theorem isAccepted_of_mem_chars {t : Token} (h : t.Readable) {c : Char} (mem : c ∈ t.chars) :
    isAccepted c = true := by
  cases t with
  | number x =>
    rw [chars, ShortestDecimal.chars_of_isFinite h.1 h.2] at mem
    simp [isAccepted, Decimal.isNumberChar_of_mem_chars mem]
  | operator o =>
    rw [List.mem_singleton.mp mem]
    exact isAccepted_symbol o
  | function name => simp [isAccepted, h.2 c mem]
  | leftParen =>
    rw [List.mem_singleton.mp mem]
    rfl
  | rightParen =>
    rw [List.mem_singleton.mp mem]
    rfl

theorem lineChars_cons_cons (t u : Token) (ts : List Token) :
    lineChars (t :: u :: ts) = t.chars ++ ' ' :: lineChars (u :: ts) := by
  simp [lineChars, List.intercalate]

theorem lineChars_append {ts us : List Token} (ht : ts ≠ []) (hu : us ≠ []) :
    lineChars (ts ++ us) = lineChars ts ++ ' ' :: lineChars us := by
  induction ts with
  | nil => exact absurd rfl ht
  | cons t ts ih =>
    obtain ⟨u, us, rfl⟩ := List.exists_cons_of_ne_nil hu
    cases ts with
    | nil => simp [lineChars, List.intercalate]
    | cons t' ts =>
      simp only [List.cons_append, lineChars_cons_cons] at ih ⊢
      rw [ih (by simp), List.append_assoc, List.cons_append]

/-- The blank between two tokens keeps their lexemes apart, even where they would fuse. -/
theorem ofChars_lineChars {ts : List Token} (readable : ∀ t ∈ ts, t.Readable) :
    ofChars (lineChars ts) = .ok ts := by
  induction ts with
  | nil => exact ofChars_nil
  | cons t ts ih =>
    have first : ofChars t.chars = .ok [t] := ofChars_chars (readable t List.mem_cons_self)
    have rest := ih fun u h => readable u (List.mem_cons_of_mem t h)
    cases ts with
    | nil => simpa [lineChars, List.intercalate] using first
    | cons u us =>
      have apart : Apart t.chars (' ' :: lineChars (u :: us)) := apart_blank isBlank_space _ _
      rw [lineChars_cons_cons, ofChars_append apart, first, ofChars_blank isBlank_space, rest]
      rfl

/-- The line of tokens that a text may be read as is read as these tokens, in whatever order they
stand. Hence the line of the tokens of a text is read as they are, unless a number overflows. -/
theorem ofChars_line :
    (∀ ts : List Token, (∀ t ∈ ts, t.Readable) → ofChars (line ts).toList = .ok ts) ∧
      ∀ (s : List Char) (ts : List Token), ofChars s = .ok ts →
        (∀ x, .number x ∈ ts → x.isFinite = true) → ofChars (line ts).toList = .ok ts := by
  have printed (ts : List Token) (readable : ∀ t ∈ ts, t.Readable) :
      ofChars (line ts).toList = .ok ts := by
    rw [line, String.toList_ofList]
    exact ofChars_lineChars readable
  exact ⟨printed, fun s ts read finite => printed ts (readable_of_ofChars read finite)⟩

/-- Neighbours that would fuse: two numbers, two names and two stars. -/
theorem ofChars_line_fusing :
    let ts : List Token := [.number 1.5, .number 20, .function "tan", .function "x",
      .operator .mul, .operator .mul, .rightParen]
    let s := "1.5 20tan x* *)".toList
    (∀ t ∈ ts, t.Readable) ∧ ofChars s = .ok ts ∧ (∀ x, .number x ∈ ts → x.isFinite = true) ∧
      line ts = "1.5 20 tan x * * )" ∧ ofChars (line ts).toList = .ok ts ∧
      ofChars (line ts.reverse).toList = .ok ts.reverse := by
  intro ts s
  have readable : ∀ t ∈ ts, t.Readable := by decide +kernel
  have read : ofChars s = .ok ts := by decide +kernel
  have finite : ∀ x, .number x ∈ ts → x.isFinite = true := fun x mem => (readable _ mem).1
  exact ⟨readable, read, finite, by decide +kernel, ofChars_line.2 s ts read finite,
    ofChars_line.1 ts.reverse fun t mem => readable t (List.mem_reverse.mp mem)⟩

end Calculator.Token

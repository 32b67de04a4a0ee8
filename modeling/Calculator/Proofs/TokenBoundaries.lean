import Calculator.Proofs.LongestLexemes
import Calculator.Proofs.StructuralClassification

/-!
# Where tokens end

A text is read in two parts wherever no lexeme reaches across. Blanks are such places, so without
them lexemes may run into one another: two numbers, two names, and stars. But such tokens are never
neighbours where operands and operators alternate. Hence a text whose tokens have a value is read in
the same way with its blanks and without them.
-/
namespace Calculator.Token

/-- The written forms of the two tokens run into one another when nothing stands between them. -/
def fuses : Token → Token → Bool
  | .number _, .number _ => true
  | .function _, .function _ => true
  | .operator .mul, .operator .mul => true
  | _, _ => false

def starred : Token → Bool
  | .operator .mul | .operator .pow => true
  | _ => false

/-- However the two tokens are spelled, nothing need stand between them. -/
def Separate (t u : Token) : Prop := t.fuses u = false ∧ (t.starred && u.starred) = false

end Calculator.Token

namespace Calculator.Lexeme
open Blank Alphabet

section Joints

/-- Blanks, parentheses and all operators but the star. -/
def Divides (c : Char) : Prop := isBlank c = true ∨ c ∈ ['(', ')', '+', '-', '/', '^']

theorem fuses_comm (a b : Char) : fuses a b = fuses b a := by
  simp only [fuses, Bool.and_comm]

theorem Divides.not_fuses {a : Char} (h : Divides a) (b : Char) : fuses a b = false := by
  obtain blank | sign := h
  · rw [fuses_comm]
    exact not_fuses_blank blank b
  · simp only [List.mem_cons, List.not_mem_nil, or_false] at sign
    rcases sign with rfl | rfl | rfl | rfl | rfl | rfl <;> rfl

theorem apart_of_divides {s t : List Char}
    (h : (∃ a ∈ s.getLast?, Divides a) ∨ ∃ b ∈ t.head?, Divides b) : Apart s t := by
  intro a ha b hb
  obtain ⟨c, hc, divides⟩ | ⟨c, hc, divides⟩ := h
  · obtain rfl : a = c := Option.mem_unique ha hc
    exact divides.not_fuses b
  · obtain rfl : b = c := Option.mem_unique hb hc
    rw [fuses_comm]
    exact divides.not_fuses a

end Joints

section Spellings

variable {l rest l' rest' s : List Char} {t u : Token} {ls : List (List Char × Token)} {c : Char}

/-- Each character of a lexeme shows what kind of token it is. -/
theorem Means.kind (h : Means l rest t) (mem : c ∈ l) :
    (isNameChar c = true → ∃ name, t = .function name) ∧
      (isNumberChar c = true → ∃ x, t = .number x) ∧ (c = '*' → t.starred = true) := by
  cases h with
  | leftParen =>
    rw [List.mem_singleton.mp mem]
    exact ⟨nofun, nofun, by decide⟩
  | rightParen =>
    rw [List.mem_singleton.mp mem]
    exact ⟨nofun, nofun, by decide⟩
  | @sign o _ _ =>
    rw [List.mem_singleton.mp mem]
    cases o <;> exact ⟨nofun, nofun, by decide⟩
  | power =>
    rw [List.eq_of_mem_replicate (n := 2) mem]
    exact ⟨nofun, nofun, fun _ => rfl⟩
  | star =>
    rw [List.mem_singleton.mp mem]
    exact ⟨nofun, nofun, fun _ => rfl⟩
  | name longest =>
    have name := longest.1.2 c mem
    refine ⟨fun _ => ⟨_, rfl⟩, fun number => ?_, ?_⟩
    · rw [not_name_of_number number] at name
      cases name
    · rintro rfl
      cases name
  | number longest =>
    have number := longest.1.1 c mem
    refine ⟨fun name => ?_, fun _ => ⟨_, rfl⟩, ?_⟩
    · rw [not_name_of_number number] at name
      cases name
    · rintro rfl
      cases number

/-- Lexemes of separate tokens do not run into one another. -/
theorem Means.apart (h : Means l rest t) (h' : Means l' rest' u) (separate : t.Separate u) :
    Apart l l' := by
  intro a ha b hb
  obtain ⟨name, number, star⟩ := h.kind (List.mem_of_getLast? ha)
  obtain ⟨name', number', star'⟩ := h'.kind (List.mem_of_head? hb)
  obtain ⟨apart, unstarred⟩ := separate
  rw [← Bool.not_eq_true]
  intro both
  simp only [fuses, Bool.or_eq_true, Bool.and_eq_true, decide_eq_true_eq] at both
  obtain (⟨first, second⟩ | ⟨first, second⟩) | ⟨first, second⟩ := both
  · obtain ⟨f, rfl⟩ := name first
    obtain ⟨f', rfl⟩ := name' second
    cases apart
  · obtain ⟨x, rfl⟩ := number first
    obtain ⟨x', rfl⟩ := number' second
    cases apart
  · rw [star first, star' second] at unstarred
    cases unstarred

/-- What stands behind a lexeme may be changed, as long as the lexeme does not reach into it. -/
theorem Means.of_apart (h : Means l rest t) (apart : Apart l rest') : Means l rest' t := by
  cases h with
  | leftParen => exact .leftParen rest'
  | rightParen => exact .rightParen rest'
  | sign unstarred => exact .sign unstarred rest'
  | power => exact .power rest'
  | star last => exact .star fun second => ne_star_of_not_fuses (apart '*' rfl '*' second) rfl
  | name longest =>
    refine .name (.of_head longest.1 fun b head more longer => ?_)
    have name := longer.2 b (List.mem_append_right _ List.mem_cons_self)
    rw [apart.head_name longest.1.1 longest.1.2 b head] at name
    cases name
  | number longest digit read =>
    have nonempty : l ≠ [] := List.ne_nil_of_mem digit.choose_spec.1
    refine .number (.of_head longest.1 fun b head more longer => ?_) digit read
    have number := longer.1 b (List.mem_append_right _ List.mem_cons_self)
    rw [apart.head_number nonempty longest.1.1 b head] at number
    cases number

theorem Splits.means_of_mem (h : Splits s ls) {p : List Char × Token} (mem : p ∈ ls) :
    ∃ rest, Means p.1 rest p.2 := by
  induction h with
  | nil => cases mem
  | blank blank behind ih => exact ih mem
  | @lexeme l rest t ls means behind ih =>
    obtain rfl | later := List.mem_cons.mp mem
    · exact ⟨rest, means⟩
    · exact ih later

/-- A text that splits is accepted, and without its blanks it is made of its lexemes alone. -/
theorem Splits.clean (h : Splits s ls) : clean s = .ok (ls.map Prod.fst).flatten := by
  refine clean_eq_ok.mpr ⟨h.flatten.1.symm, fun c mem => ?_⟩
  obtain ⟨l, written, mem⟩ := List.mem_flatten.mp mem
  obtain ⟨p, lexeme, rfl⟩ := List.mem_map.mp written
  obtain ⟨rest, means⟩ := h.means_of_mem lexeme
  exact means.isAccepted c mem

/-- Where neighbours are separate, the text splits in the same way without its blanks. -/
theorem Splits.squeeze (h : Splits s ls) (separate : (ls.map Prod.snd).IsChain Token.Separate) :
    Splits (ls.map Prod.fst).flatten ls := by
  induction h with
  | nil => exact .nil
  | blank blank behind ih => exact ih separate
  | @lexeme l rest t ls means behind ih =>
    obtain ⟨next, chain⟩ := List.isChain_cons.mp separate
    refine .lexeme (means.of_apart ?_) (ih chain)
    cases ls with
    | nil => exact apart_nil_right l
    | cons p ls =>
      obtain ⟨rest', means'⟩ := behind.means_of_mem List.mem_cons_self
      exact (means.apart means' (next p.2 rfl)).append_right means'.ne_nil _

end Spellings

end Calculator.Lexeme

namespace Calculator.Token
open Blank Lexeme

theorem separate_number {u : Token} (h : ∀ y, u ≠ .number y) (x : Float) :
    (number x).Separate u := by
  refine ⟨?_, rfl⟩
  cases u with
  | number y => exact absurd rfl (h y)
  | operator _ | function _ | leftParen | rightParen => rfl

theorem separate_operator {u : Token} (h : u.starred = false) (o : BinaryOperator) :
    (operator o).Separate u := by
  refine ⟨?_, by rw [h, Bool.and_false]⟩
  cases u with
  | operator o' =>
    cases o' with
    | mul => cases h
    | add | sub | div | pow => cases o <;> rfl
  | number _ | function _ | leftParen | rightParen => cases o <;> rfl

/-- Where no lexeme reaches from one text into the next, they are read one behind the other: the
first failure is that of the whole, and without one the tokens of both stand in order. It is enough
that a blank, a parenthesis or an operator other than the star stands on either side. -/
theorem ofChars_joined (s t : List Char) :
    (Apart s t → ofChars (s ++ t) = match ofChars s, ofChars t with
      | .error failure, _ => .error failure
      | .ok _, .error failure => .error failure
      | .ok ts, .ok us => .ok (ts ++ us)) ∧
      ((∃ a ∈ s.getLast?, Divides a) ∨ (∃ b ∈ t.head?, Divides b) → Apart s t) := by
  refine ⟨fun apart => ?_, apart_of_divides⟩
  rw [ofChars_append apart]
  cases ofChars s with
  | error failure => rfl
  | ok ts =>
    cases ofChars t with
    | error failure => rfl
    | ok us => rfl

/-- A number ends where a name starts, and a point without digits fails behind the texts before. -/
theorem ofChars_joined_names :
    let s := "2 * 1.5".toList
    let t := "tan(.5".toList
    let v := "-.".toList
    Apart s t ∧ ofChars (s ++ t) = .ok [.number 2, .operator .mul, .number 1.5, .function "tan",
      .leftParen, .number 0.5] ∧ (∃ b ∈ v.head?, Divides b) ∧
      ofChars (s ++ v) = .error .malformed := by
  intro s t v
  have divides : ∃ b ∈ v.head?, Divides b := ⟨'-', rfl, .inr (by simp)⟩
  have apart : Apart s t := by
    rintro a ⟨rfl⟩ b ⟨rfl⟩
    rfl
  have first : ofChars s = .ok [.number 2, .operator .mul, .number 1.5] := by decide +kernel
  have second : ofChars t = .ok [.function "tan", .leftParen, .number 0.5] := by decide +kernel
  have point : ofChars v = .error .malformed := by decide +kernel
  have joined := (ofChars_joined s t).1 apart
  have broken := (ofChars_joined s v).1 ((ofChars_joined s v).2 (.inr divides))
  rw [first, second] at joined
  rw [first, point] at broken
  exact ⟨apart, joined, divides, broken⟩

end Calculator.Token

namespace Calculator

theorem not_number_of_structuralFault? {opened : Nat} {u : Token} {ts : List Token}
    (h : structuralFault? false opened ts = none) (next : u ∈ ts.head?) (y : Float) :
    u ≠ .number y := by
  rintro rfl
  obtain ⟨us, rfl⟩ := List.head?_eq_some_iff.mp next
  cases h

theorem not_starred_of_structuralFault? {opened : Nat} {u : Token} {ts : List Token}
    (h : structuralFault? true opened ts = none) (next : u ∈ ts.head?) : u.starred = false := by
  obtain ⟨us, rfl⟩ := List.head?_eq_some_iff.mp next
  cases u with
  | operator o =>
    cases o with
    | mul => cases h
    | pow => cases h
    | add | sub | div => rfl
  | number _ | function _ | leftParen | rightParen => rfl

/-- A sound structure goes on soundly behind its first token, which never runs into the second. -/
theorem structuralFault?_tail {expects : Bool} {opened : Nat} {t : Token} {ts : List Token}
    (h : structuralFault? expects opened (t :: ts) = none) :
    (∃ expects' opened', structuralFault? expects' opened' ts = none) ∧
      ∀ u ∈ ts.head?, t.Separate u := by
  cases t with
  | number x =>
    rw [structuralFault?, ite_eq_iff] at h
    obtain ⟨-, h⟩ | ⟨-, h⟩ := h
    · refine ⟨⟨_, _, h⟩, fun u next => ?_⟩
      exact Token.separate_number (not_number_of_structuralFault? h next) x
    · cases h
  | operator o =>
    rw [structuralFault?, ite_eq_iff] at h
    obtain ⟨-, h⟩ | ⟨-, h⟩ := h
    · cases h
    · refine ⟨⟨_, _, h⟩, fun u next => ?_⟩
      exact Token.separate_operator (not_starred_of_structuralFault? h next) o
  | function name =>
    simp only [structuralFault?, ite_eq_iff] at h
    obtain ⟨-, ⟨-, h⟩ | ⟨-, ⟨paren, h⟩ | ⟨-, h⟩⟩⟩ | ⟨-, h⟩ := h
    · cases h
    · refine ⟨⟨_, _, h⟩, fun u next => ?_⟩
      rw [paren] at next
      cases next
      exact ⟨rfl, rfl⟩
    · cases h
    · cases h
  | leftParen =>
    rw [structuralFault?, ite_eq_iff] at h
    obtain ⟨-, h⟩ | ⟨-, h⟩ := h
    · exact ⟨⟨_, _, h⟩, fun u _ => ⟨rfl, rfl⟩⟩
    · cases h
  | rightParen =>
    simp only [structuralFault?, ite_eq_iff] at h
    obtain ⟨-, h⟩ | ⟨-, ⟨-, h⟩ | ⟨-, h⟩⟩ := h
    · cases h
    · cases h
    · exact ⟨⟨_, _, h⟩, fun u _ => ⟨rfl, rfl⟩⟩

/-- In a sound structure all neighbours are separate. -/
theorem separate_of_structuralFault? {expects : Bool} {opened : Nat} {ts : List Token}
    (h : structuralFault? expects opened ts = none) : ts.IsChain Token.Separate := by
  induction ts generalizing expects opened with
  | nil => exact .nil
  | cons t ts ih =>
    obtain ⟨⟨_, _, rest⟩, next⟩ := structuralFault?_tail h
    exact List.isChain_cons.mpr ⟨next, ih rest⟩

theorem evaluate_of_ofChars {entry : String} {ts : List Token} {result : Reduction}
    (read : Token.ofChars entry.toList = .ok ts) (reduced : reduce ts = .ok result) :
    evaluate entry = .ok ⟨result.value, ts, result.steps⟩ := by
  obtain ⟨ls, splits, rfl⟩ := Lexeme.exists_splits_of_ofChars read
  have separate := separate_of_structuralFault? (structuralFault?_of_reduce reduced)
  rw [evaluate_of_read splits.clean (splits.squeeze separate).ofChars, reduced]
  rfl

/-- Taking away its blanks changes nothing about a text whose tokens have a value: the entry has
that value, shows these tokens, and takes the same steps. -/
theorem evaluate_ignores_blanks {entry : String} {ts : List Token} {result : Reduction}
    (read : Token.ofChars entry.toList = .ok ts) (reduced : reduce ts = .ok result) :
    ∃ e, evaluate entry = .ok e ∧ e.value = result.value ∧ e.tokens = ts ∧ e.steps = result.steps ∧
      e.tokenLine = Token.line ts ∧ e.stepTexts = result.steps.map Step.text :=
  ⟨_, evaluate_of_ofChars read reduced, rfl, rfl, rfl, rfl, rfl⟩

/-- Blanks of several kinds, and a number that is not written as it is shown. -/
theorem evaluate_ignores_blanks_quotient :
    let entry := " 2.50 *\t( 1.\n- .5 )/ - 4"
    let ts : List Token := [.number 2.5, .operator .mul, .leftParen, .number 1, .operator .sub,
      .number 0.5, .rightParen, .operator .div, .operator .sub, .number 4]
    let result : Reduction := ⟨-0.3125, [.binary .sub 1 0.5 0.5, .binary .mul 2.5 0.5 1.25,
      .negation 4 (-4), .binary .div 1.25 (-4) (-0.3125)]⟩
    Token.ofChars entry.toList = .ok ts ∧ reduce ts = .ok result ∧
      ∃ e, evaluate entry = .ok e ∧ e.value = result.value ∧ e.tokens = ts ∧
        e.steps = result.steps ∧ e.tokenLine = Token.line ts ∧
        e.stepTexts = result.steps.map Step.text := by
  intro entry ts result
  have read : Token.ofChars entry.toList = .ok ts := by decide +kernel
  have reduced : reduce ts = .ok result := by decide +kernel
  exact ⟨read, reduced, evaluate_ignores_blanks read reduced⟩

end Calculator

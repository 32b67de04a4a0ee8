import Calculator.Proofs.LongestLexemes
import Calculator.Proofs.StructuralClassification

/-!
# Refused characters

Cleaning an entry and reading a text look for the characters they accept in different ways, and
accept the same: blanks, digits, small letters, the point and the signs. Of all faults of an entry
its first character outside these is the one that counts. A text that is read with its blanks is
refused for that character too, unless the reading comes to a point without digits before; and if
all characters are accepted, such a point is the only fault that reading finds.
-/
namespace Calculator.Lexeme
open Blank Alphabet

section Writable

variable {c : Char}

/-- What an entry is written with besides blanks. -/
def Writable (c : Char) : Prop :=
  c.isDigit = true ∨ c.isLower = true ∨ c ∈ ['.', '+', '-', '*', '/', '^', '(', ')']

instance : DecidablePred Writable := fun c =>
  inferInstanceAs (Decidable (c.isDigit = true ∨ c.isLower = true ∨ c ∈ _))

/-- The alphabet of entries is what they may be written with. -/
theorem isAccepted_iff_writable : isAccepted c = true ↔ Writable c := by
  simp only [isAccepted, isSign, isNameChar, isNumberChar, Writable, BinaryOperator.ofSymbol?,
    BinaryOperator.all, List.find?_isSome, Bool.or_eq_true, decide_eq_true_eq, List.mem_cons,
    List.not_mem_nil, or_false, exists_eq_or_imp, exists_eq_left, BinaryOperator.symbol,
    eq_comm (b := c)]
  tauto

end Writable

section Reading

variable {s rest : List Char} {c : Char} {failure : Failure}

/-- Reading a text goes through blanks and lexemes, and comes to the rest. -/
inductive Reaches : List Char → List Char → Prop
  | here (s : List Char) : Reaches s s
  | blank {c : Char} {cs rest : List Char} (blank : isBlank c = true) (behind : Reaches cs rest) :
      Reaches (c :: cs) rest
  | lexeme {l later rest : List Char} {t : Token} (means : Means l later t)
      (behind : Reaches later rest) : Reaches (l ++ later) rest

/-- Reading the text comes to a number that is nothing but a point. -/
def HasLonePoint (s : List Char) : Prop :=
  ∃ rest, Reaches s ('.' :: rest) ∧ Longest IsNumeral ['.'] rest

theorem Reaches.breaks (h : Reaches s rest) (breaks : Breaks rest failure) : Breaks s failure := by
  induction h with
  | here s => exact breaks
  | blank blank behind ih => exact .blank blank (ih breaks)
  | lexeme means behind ih => exact .lexeme means (ih breaks)

theorem Breaks.cases (h : Breaks s failure) :
    failure = .malformed ∧ HasLonePoint s ∨
      ∃ c ∈ s, isBlank c = false ∧ isAccepted c = false ∧ failure = .strayCharacter c := by
  induction h with
  | @blank c cs failure blank behind ih =>
    obtain ⟨malformed, rest, reaches, longest⟩ | ⟨d, mem, stray⟩ := ih
    · exact .inl ⟨malformed, rest, .blank blank reaches, longest⟩
    · exact .inr ⟨d, List.mem_cons_of_mem c mem, stray⟩
  | @lexeme l rest t failure means behind ih =>
    obtain ⟨malformed, rest, reaches, longest⟩ | ⟨d, mem, stray⟩ := ih
    · exact .inl ⟨malformed, rest, .lexeme means reaches, longest⟩
    · exact .inr ⟨d, List.mem_append_right l mem, stray⟩
  | @point rest longest => exact .inl ⟨rfl, rest, .here _, longest⟩
  | @stray c cs unblank starts =>
    exact .inr ⟨c, List.mem_cons_self, unblank, refused_of_starts starts, rfl⟩

theorem HasLonePoint.ofChars (h : HasLonePoint s) : Token.ofChars s = .error .malformed := by
  obtain ⟨rest, reaches, longest⟩ := h
  exact (reaches.breaks (.point longest)).ofChars

theorem lonePoint_of_ofChars (accepted : ∀ c ∈ s, isBlank c = true ∨ isAccepted c = true)
    (read : Token.ofChars s = .error failure) : failure = .malformed ∧ HasLonePoint s := by
  obtain point | ⟨c, mem, blank, refused, -⟩ := (breaks_of_ofChars read).cases
  · exact point
  · have accepted := accepted c mem
    rw [blank, refused] at accepted
    simp at accepted

end Reading

section Refusing

variable {before after : List Char} {c : Char}

theorem apart_refused (refused : isAccepted c = false) (s t : List Char) : Apart s (c :: t) := by
  rintro a - b ⟨rfl⟩
  have star : c ≠ '*' := by
    rintro rfl
    cases refused
  simp only [isAccepted, Bool.or_eq_false_iff] at refused
  simp [fuses, refused.1, star]

theorem clean_refused (accepted : ∀ d ∈ before, isBlank d = true ∨ isAccepted d = true)
    (blank : isBlank c = false) (refused : isAccepted c = false) (after : List Char) :
    clean (before ++ c :: after) = .error (.strayCharacter c) := by
  have none : (before.filter fun d => !isBlank d).find? (fun d => !isAccepted d) = none := by
    rw [List.find?_eq_none]
    intro d mem
    obtain ⟨mem, unblank⟩ := List.mem_filter.mp mem
    obtain blank | accepted := accepted d mem
    · rw [blank] at unblank
      cases unblank
    · simp [accepted]
  have found : ((before ++ c :: after).filter fun d => !isBlank d).find? (fun d => !isAccepted d)
      = some c := by
    rw [List.filter_append, List.find?_append, none, List.filter_cons_of_pos (by simp [blank]),
      List.find?_cons_of_pos (by simp [refused]), Option.none_or]
  simp only [clean, found]

theorem clean_of_blank_or_accepted {s : List Char}
    (accepted : ∀ c ∈ s, isBlank c = true ∨ isAccepted c = true) :
    clean s = .ok (s.filter fun c => !isBlank c) := by
  refine clean_eq_ok.mpr ⟨rfl, fun c mem => ?_⟩
  obtain ⟨mem, unblank⟩ := List.mem_filter.mp mem
  exact (accepted c mem).resolve_left (by simpa using unblank)

theorem ofChars_refused_behind (accepted : ∀ d ∈ before, isBlank d = true ∨ isAccepted d = true)
    (blank : isBlank c = false) (refused : isAccepted c = false) (after : List Char) :
    (HasLonePoint before → Token.ofChars (before ++ c :: after) = .error .malformed) ∧
      (¬HasLonePoint before →
        Token.ofChars (before ++ c :: after) = .error (.strayCharacter c)) := by
  rw [Token.ofChars_append (apart_refused refused before after),
    Token.ofChars_refused blank refused]
  constructor
  · intro point
    rw [point.ofChars]
    rfl
  · intro none
    cases read : Token.ofChars before with
    | ok ts => rfl
    | error failure => exact absurd (lonePoint_of_ofChars accepted read).2 none

end Refusing

end Calculator.Lexeme

namespace Calculator
open Blank Lexeme Alphabet

section Failures

theorem structuralFault?_ne_stray (c : Char) (expects : Bool) (opened : Nat) (ts : List Token) :
    structuralFault? expects opened ts ≠ some (.strayCharacter c) := by
  induction ts generalizing expects opened with
  | nil =>
    rw [structuralFault?]
    split_ifs <;> simp
  | cons t ts ih =>
    cases t with
    | number | operator | function | leftParen | rightParen =>
      simp only [structuralFault?]
      split_ifs <;> simp [ih]

theorem reduce_ne_stray (ts : List Token) (c : Char) :
    reduce ts ≠ .error (.strayCharacter c) := by
  intro failed
  have agrees := reduce_agrees ts
  rw [failed] at agrees
  cases found : structuralFault? true 0 ts with
  | none =>
    rw [found] at agrees
    cases agrees
  | some failure =>
    rw [found] at agrees
    cases agrees
    exact structuralFault?_ne_stray c true 0 ts found

theorem evaluate_ne_stray {entry : String}
    (accepted : ∀ c ∈ entry.toList, isBlank c = true ∨ isAccepted c = true) (c : Char) :
    evaluate entry ≠ .error (.strayCharacter c) := by
  have kept := clean_of_blank_or_accepted accepted
  intro failed
  rw [evaluate, kept, ok_bind] at failed
  cases read : Token.ofChars (entry.toList.filter fun c => !isBlank c) with
  | error failure =>
    have accepted' : ∀ c ∈ entry.toList.filter fun c => !isBlank c,
        isBlank c = true ∨ isAccepted c = true := fun c mem => accepted c (List.mem_filter.mp mem).1
    rw [read, (lonePoint_of_ofChars accepted' read).1] at failed
    cases failed
  | ok ts =>
    rw [read, ok_bind] at failed
    cases reduced : reduce ts with
    | error failure =>
      rw [reduced] at failed
      cases failed
      exact reduce_ne_stray ts c reduced
    | ok result =>
      rw [reduced] at failed
      cases failed

end Failures

/-- Cleaning and reading accept the same characters. The first character of an entry that is neither
blank nor writable is refused by cleaning, and so by evaluation, whatever else is wrong; reading the
entry with its blanks refuses it too, unless it comes to a point without digits before. Where there
is no such character, nothing is refused, cleaning drops the blanks alone, and a point without
digits is all that keeps a text from being read, with its blanks or without them. -/
theorem refuses_first_unwritable (entry : String) :
    (∀ before c after, entry.toList = before ++ c :: after →
      (∀ d ∈ before, isBlank d = true ∨ Writable d) → isBlank c = false → ¬Writable c →
      clean entry.toList = .error (.strayCharacter c) ∧
        evaluate entry = .error (.strayCharacter c) ∧
        (HasLonePoint before → Token.ofChars entry.toList = .error .malformed) ∧
        (¬HasLonePoint before → Token.ofChars entry.toList = .error (.strayCharacter c))) ∧
      ((∀ c ∈ entry.toList, isBlank c = true ∨ Writable c) →
        let kept := entry.toList.filter fun c => !isBlank c
        clean entry.toList = .ok kept ∧ (∀ c, evaluate entry ≠ .error (.strayCharacter c)) ∧
          ∀ text ∈ [entry.toList, kept], ∀ failure, Token.ofChars text = .error failure →
            failure = .malformed ∧ HasLonePoint text) := by
  simp only [← isAccepted_iff_writable, Bool.not_eq_true]
  refine ⟨fun before c after whole accepted blank refused => ?_, fun accepted => ?_⟩
  · have cleaned := clean_refused accepted blank refused after
    obtain ⟨point, none⟩ := ofChars_refused_behind accepted blank refused after
    rw [← whole] at cleaned point none
    refine ⟨cleaned, ?_, point, none⟩
    rw [evaluate, cleaned, error_bind]
  · refine ⟨clean_of_blank_or_accepted accepted, evaluate_ne_stray accepted, ?_⟩
    intro text mem failure read
    obtain rfl | kept := List.mem_cons.mp mem
    · exact lonePoint_of_ofChars accepted read
    · obtain rfl := List.mem_singleton.mp kept
      exact lonePoint_of_ofChars (fun c mem => accepted c (List.mem_filter.mp mem).1) read

/-- The same character behind a point without digits and behind a number that ends in a point, and a
point that has its digits only without the blanks. -/
theorem refuses_first_unwritable_points :
    let broken := "(2 .é."
    let stray := "(2.é#"
    let writable := "2 . 5"
    (∀ d ∈ "(2 .".toList, isBlank d = true ∨ Writable d) ∧
      (∀ d ∈ "(2.".toList, isBlank d = true ∨ Writable d) ∧ isBlank 'é' = false ∧ ¬Writable 'é' ∧
      HasLonePoint "(2 .".toList ∧ ¬HasLonePoint "(2.".toList ∧
      evaluate broken = .error (.strayCharacter 'é') ∧
      Token.ofChars broken.toList = .error .malformed ∧
      clean stray.toList = .error (.strayCharacter 'é') ∧
      Token.ofChars stray.toList = .error (.strayCharacter 'é') ∧
      (∀ c ∈ writable.toList, isBlank c = true ∨ Writable c) ∧
      clean writable.toList = .ok "2.5".toList ∧
      Token.ofChars writable.toList = .error .malformed ∧ HasLonePoint writable.toList := by
  intro broken stray writable
  have before : ∀ d ∈ "(2 .".toList, isBlank d = true ∨ Writable d :=
    List.forall_iff_forall_mem.mp (by decide +kernel)
  have before' : ∀ d ∈ "(2.".toList, isBlank d = true ∨ Writable d :=
    List.forall_iff_forall_mem.mp (by decide +kernel)
  have blank : isBlank 'é' = false := by decide +kernel
  have refused : ¬Writable 'é' := by decide +kernel
  have broke : Token.ofChars "(2 .".toList = .error .malformed := by decide +kernel
  have point : HasLonePoint "(2 .".toList :=
    (lonePoint_of_ofChars (by simpa [isAccepted_iff_writable] using before) broke).2
  have none : ¬HasLonePoint "(2.".toList := by
    intro point
    have read : Token.ofChars "(2.".toList = .ok [.leftParen, .number 2] := by decide +kernel
    rw [point.ofChars] at read
    cases read
  have accepted : ∀ c ∈ writable.toList, isBlank c = true ∨ Writable c :=
    List.forall_iff_forall_mem.mp (by decide +kernel)
  have read : Token.ofChars writable.toList = .error .malformed := by decide +kernel
  have whole : broken.toList = "(2 .".toList ++ 'é' :: ['.'] := by decide
  have whole' : stray.toList = "(2.".toList ++ 'é' :: ['#'] := by decide
  obtain ⟨-, evaluated, malformed, -⟩ :=
    (refuses_first_unwritable broken).1 _ _ _ whole before blank refused
  obtain ⟨cleaned, -, -, strayed⟩ :=
    (refuses_first_unwritable stray).1 _ _ _ whole' before' blank refused
  obtain ⟨kept, -, points⟩ := (refuses_first_unwritable writable).2 accepted
  have compact : (writable.toList.filter fun c => !isBlank c) = "2.5".toList := by decide +kernel
  rw [compact] at kept
  exact ⟨before, before', blank, refused, point, none, evaluated, malformed point, cleaned,
    strayed none, accepted, kept, read, (points _ List.mem_cons_self _ read).2⟩

end Calculator

import Calculator.Blank

/-! # Lexemes

A text is cut from left to right into blanks, which are dropped, and lexemes as long as possible:
names, numbers, the two-character power sign and single characters. Cutting never fails; what a
lexeme means is decided elsewhere.
-/
namespace Calculator.Lexeme
open Blank

def isNameChar (c : Char) : Bool := c.isLower

def isNumberChar (c : Char) : Bool := c.isDigit || c = '.'

/-- The longest run of digits with at most one point at the start of a text, and the rest. -/
def cutNumber (cs : List Char) : List Char × List Char :=
  let whole := cs.takeWhile Char.isDigit
  match cs.dropWhile Char.isDigit with
  | '.' :: rest => (whole ++ '.' :: rest.takeWhile Char.isDigit, rest.dropWhile Char.isDigit)
  | rest => (whole, rest)

/-- The lexeme that starts with the character `c`, and what follows it in `cs`. -/
def cut (c : Char) (cs : List Char) : List Char × List Char :=
  if isNameChar c then (c :: cs.takeWhile isNameChar, cs.dropWhile isNameChar)
  else if isNumberChar c then cutNumber (c :: cs)
  else
    match c, cs with
    | '*', '*' :: rest => (['*', '*'], rest)
    | c, rest => ([c], rest)

theorem cutNumber_append (cs : List Char) : (cutNumber cs).1 ++ (cutNumber cs).2 = cs := by
  unfold cutNumber
  split
  · next rest h =>
    simp only [List.append_assoc, List.cons_append, List.takeWhile_append_dropWhile]
    rw [← h, List.takeWhile_append_dropWhile]
  · simp

theorem cutNumber_ne_nil {c : Char} {cs : List Char} (h : isNumberChar c = true) :
    (cutNumber (c :: cs)).1 ≠ [] := by
  unfold cutNumber
  by_cases hd : c.isDigit
  · split <;> simp [hd]
  · have hc : c = '.' := by simpa [isNumberChar, hd] using h
    subst hc
    split <;> simp_all

theorem cut_append (c : Char) (cs : List Char) : (cut c cs).1 ++ (cut c cs).2 = c :: cs := by
  unfold cut
  split
  · simp
  split
  · exact cutNumber_append _
  split <;> simp

theorem cut_ne_nil (c : Char) (cs : List Char) : (cut c cs).1 ≠ [] := by
  unfold cut
  split
  · simp
  split
  · next h => exact cutNumber_ne_nil h
  split <;> simp

theorem length_cut_le (c : Char) (cs : List Char) : (cut c cs).2.length ≤ cs.length := by
  have whole := congrArg List.length (cut_append c cs)
  have nonempty := List.length_pos_iff.mpr (cut_ne_nil c cs)
  simp only [List.length_append, List.length_cons] at whole
  omega

def ofChars : List Char → List (List Char)
  | [] => []
  | c :: cs => if isBlank c then ofChars cs else (cut c cs).1 :: ofChars (cut c cs).2
termination_by cs => cs.length
decreasing_by
  · simp
  · exact Nat.lt_succ_of_le (length_cut_le c cs)

end Calculator.Lexeme

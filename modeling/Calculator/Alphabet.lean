import Calculator.BinaryOperator
import Calculator.Lexeme

/-! # The alphabet of entries -/
namespace Calculator.Alphabet
open Blank Lexeme

def isSign (c : Char) : Bool := c = '(' || c = ')' || (BinaryOperator.ofSymbol? c).isSome

def isAccepted (c : Char) : Bool := isNameChar c || isNumberChar c || isSign c

/-- An entry without its blanks. Its first character outside the alphabet is refused. -/
def clean (cs : List Char) : Except Failure (List Char) :=
  let kept := cs.filter fun c => !isBlank c
  match kept.find? fun c => !isAccepted c with
  | some c => .error (.strayCharacter c)
  | none => .ok kept

end Calculator.Alphabet

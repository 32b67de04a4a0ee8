import Calculator.BinaryOperator
import Calculator.Failure
import Calculator.Lexeme
import Calculator.ShortestDecimal

/-! # Tokens -/
namespace Calculator

/-- What a lexeme stands for. A name is kept as it is written, known or not. -/
inductive Token
  | number (x : Float)
  | operator (o : BinaryOperator)
  | function (name : String)
  | leftParen
  | rightParen
  deriving DecidableEq

namespace Token

/-- The token of a lexeme. A number needs a digit, and a character on its own needs a meaning. -/
def ofLexeme : List Char → Except Failure Token
  | [] => .error .malformed
  | ['*', '*'] => .ok (.operator .pow)
  | c :: cs =>
    if Lexeme.isNameChar c then .ok (.function (String.ofList (c :: cs)))
    else if Lexeme.isNumberChar c then
      match Decimal.ofChars? (c :: cs) with
      | some d => .ok (.number d.toFloat)
      | none => .error .malformed
    else if c = '(' then .ok .leftParen
    else if c = ')' then .ok .rightParen
    else
      match BinaryOperator.ofSymbol? c with
      | some o => .ok (.operator o)
      | none => .error (.strayCharacter c)

def ofChars (cs : List Char) : Except Failure (List Token) := (Lexeme.ofChars cs).mapM ofLexeme

def chars : Token → List Char
  | .number x => ShortestDecimal.chars x
  | .operator o => [o.symbol]
  | .function name => name.toList
  | .leftParen => ['(']
  | .rightParen => [')']

def lineChars (ts : List Token) : List Char := [' '].intercalate (ts.map chars)

def line (ts : List Token) : String := String.ofList (lineChars ts)

end Token

end Calculator

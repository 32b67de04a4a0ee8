import Calculator.BinaryOperator
import Calculator.NamedFunction
import Calculator.ShortestDecimal

/-! # Steps of a reduction -/
namespace Calculator

def requireFinite (x : Float) : Except DomainFault Float :=
  if x.isFinite then .ok x else .error .notFinite

inductive Step
  | binary (o : BinaryOperator) (left right result : Float)
  | negation (operand result : Float)
  | call (f : NamedFunction) (argument result : Float)
  deriving DecidableEq

namespace Step

def ofOperator (o : BinaryOperator) (left right : Float) : Except DomainFault Step := do
  let result ← requireFinite (← o.apply left right)
  return .binary o left right result

/-- Changes the sign, which keeps finite what is finite. -/
def ofNegation (operand : Float) : Step := .negation operand (-operand)

def ofFunction (f : NamedFunction) (argument : Float) : Except DomainFault Step := do
  let result ← requireFinite (← f.apply argument)
  return .call f argument result

def result : Step → Float
  | .binary _ _ _ result => result
  | .negation _ result => result
  | .call _ _ result => result

def chars : Step → List Char
  | .binary o left right result =>
    ShortestDecimal.chars left ++ ' ' :: o.symbol :: ' ' :: ShortestDecimal.chars right
      ++ equals result
  | .negation operand result => '-' :: '(' :: ShortestDecimal.chars operand ++ ')' :: equals result
  | .call f argument result =>
    f.name.toList ++ '(' :: ShortestDecimal.chars argument ++ ')' :: equals result
where
  equals (result : Float) : List Char := ' ' :: '=' :: ' ' :: ShortestDecimal.chars result

def text (s : Step) : String := String.ofList s.chars

def linesChars (steps : List Step) : List Char := ['\n'].intercalate (steps.map chars)

def lines (steps : List Step) : String := String.ofList (linesChars steps)

end Step

end Calculator

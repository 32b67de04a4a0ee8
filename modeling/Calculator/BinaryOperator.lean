import Calculator.Failure

/-! # Binary operators -/
namespace Calculator

inductive BinaryOperator | add | sub | mul | div | pow deriving DecidableEq

namespace BinaryOperator

def all : List BinaryOperator := [.add, .sub, .mul, .div, .pow]

/-- A greater precedence binds its operands more closely. -/
def precedence : BinaryOperator → Nat
  | .add | .sub => 1
  | .mul | .div => 2
  | .pow => 3

def groupsRight (o : BinaryOperator) : Bool := o = .pow

def symbol : BinaryOperator → Char
  | .add => '+'
  | .sub => '-'
  | .mul => '*'
  | .div => '/'
  | .pow => '^'

def ofSymbol? (c : Char) : Option BinaryOperator := all.find? (·.symbol = c)

@[simp] theorem ofSymbol?_symbol (o : BinaryOperator) : ofSymbol? o.symbol = some o := by
  cases o <;> decide

/-- The value at two operands, which may still be infinite or no number. No number is divided by
either zero. -/
def apply (o : BinaryOperator) (left right : Float) : Except DomainFault Float :=
  match o with
  | .add => .ok (left + right)
  | .sub => .ok (left - right)
  | .mul => .ok (left * right)
  | .div => if right == 0 then .error .divisionByZero else .ok (left / right)
  | .pow => .ok (left.pow right)

end BinaryOperator

end Calculator

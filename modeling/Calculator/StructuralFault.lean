import Calculator.NamedFunction
import Calculator.Token

/-! # Structural faults of token lists

Whether tokens alternate as they must is seen without any arithmetic, from two things: whether an
operand is expected, and how many parentheses are open.
-/
namespace Calculator

/-- The first structural fault of a list of tokens, read from a point where `opened` parentheses
are open. -/
def structuralFault? (expectsOperand : Bool) (opened : Nat) : List Token → Option Failure
  | [] =>
    if 0 < opened then some .unbalanced else if expectsOperand then some .malformed else none
  | .number _ :: ts => if expectsOperand then structuralFault? false opened ts else some .malformed
  | .leftParen :: ts =>
    if expectsOperand then structuralFault? true (opened + 1) ts else some .malformed
  | .function name :: ts =>
    if expectsOperand then
      if (NamedFunction.ofName? name).isNone then some (.unknownFunction name)
      else if ts.head? = some .leftParen then structuralFault? true opened ts
      else some .malformed
    else some .malformed
  | .operator o :: ts =>
    if expectsOperand ∧ o ≠ .add ∧ o ≠ .sub then some .malformed
    else structuralFault? true opened ts
  | .rightParen :: ts =>
    if opened = 0 then some .unbalanced
    else if expectsOperand then some .malformed
    else structuralFault? false (opened - 1) ts

end Calculator

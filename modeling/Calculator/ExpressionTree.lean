import Calculator.ReductionStep
import Calculator.Token

/-! # Expression trees and their grammar

Independent of the reduction of tokens: the trees, the levels at which they stand in the grammar,
the tokens they are written with, and their evaluation from the leaves to the root.
-/
namespace Calculator

/-- An expression with all its groupings. -/
inductive ExpressionTree
  | number (x : Float)
  | group (inner : ExpressionTree)
  | call (f : NamedFunction) (argument : ExpressionTree)
  | plus (operand : ExpressionTree)
  | minus (operand : ExpressionTree)
  | binary (o : BinaryOperator) (left right : ExpressionTree)
  deriving DecidableEq

namespace ExpressionTree

/-- The levels of the grammar, from sums down to what needs no parentheses. -/
inductive Level | expression | term | factor | power | atom deriving DecidableEq

/-- The trees of each level. Sums and products are chains of the level below and group to the left;
a power groups to the right, and a sign covers the power behind it. -/
inductive HasLevel : Level → ExpressionTree → Prop
  | number (x : Float) : HasLevel .atom (.number x)
  | group {inner : ExpressionTree} (h : HasLevel .expression inner) : HasLevel .atom (.group inner)
  | call (f : NamedFunction) {argument : ExpressionTree} (h : HasLevel .expression argument) :
      HasLevel .atom (.call f argument)
  | powerOfAtom {t : ExpressionTree} (h : HasLevel .atom t) : HasLevel .power t
  | power {base exponent : ExpressionTree} (hb : HasLevel .atom base)
      (he : HasLevel .factor exponent) : HasLevel .power (.binary .pow base exponent)
  | factorOfPower {t : ExpressionTree} (h : HasLevel .power t) : HasLevel .factor t
  | plus {operand : ExpressionTree} (h : HasLevel .factor operand) :
      HasLevel .factor (.plus operand)
  | minus {operand : ExpressionTree} (h : HasLevel .factor operand) :
      HasLevel .factor (.minus operand)
  | termOfFactor {t : ExpressionTree} (h : HasLevel .factor t) : HasLevel .term t
  | product {o : BinaryOperator} {left right : ExpressionTree} (ho : o = .mul ∨ o = .div)
      (hl : HasLevel .term left) (hr : HasLevel .factor right) :
      HasLevel .term (.binary o left right)
  | expressionOfTerm {t : ExpressionTree} (h : HasLevel .term t) : HasLevel .expression t
  | sum {o : BinaryOperator} {left right : ExpressionTree} (ho : o = .add ∨ o = .sub)
      (hl : HasLevel .expression left) (hr : HasLevel .term right) :
      HasLevel .expression (.binary o left right)

def tokens : ExpressionTree → List Token
  | .number x => [.number x]
  | .group inner => .leftParen :: inner.tokens ++ [.rightParen]
  | .call f argument => .function f.name :: .leftParen :: argument.tokens ++ [.rightParen]
  | .plus operand => .operator .add :: operand.tokens
  | .minus operand => .operator .sub :: operand.tokens
  | .binary o left right => left.tokens ++ .operator o :: right.tokens

/-- A step done behind others: its result and all steps, or its fault. -/
def follow (steps : List Step) : Except DomainFault Step → Except DomainFault (Float × List Step)
  | .ok step => .ok (step.result, steps ++ [step])
  | .error fault => .error fault

/-- The value of a tree and its steps, operands first and the left one before the right one. The
first fault ends the evaluation. -/
def evaluate : ExpressionTree → Except DomainFault (Float × List Step)
  | .number x => return (← requireFinite x, [])
  | .group inner => inner.evaluate
  | .call f argument => do
    let (x, steps) ← argument.evaluate
    follow steps (Step.ofFunction f x)
  | .plus operand => operand.evaluate
  | .minus operand => do
    let (x, steps) ← operand.evaluate
    follow steps (.ok (Step.ofNegation x))
  | .binary o left right => do
    let (x, leftSteps) ← left.evaluate
    let (y, rightSteps) ← right.evaluate
    follow (leftSteps ++ rightSteps) (Step.ofOperator o x y)

end ExpressionTree

end Calculator

import Calculator.Alphabet
import Calculator.Reduction

/-! # Evaluation of an entry -/
namespace Calculator

structure Evaluation where
  value : Float
  tokens : List Token
  steps : List Step
  deriving DecidableEq

namespace Evaluation

def tokenLine (e : Evaluation) : String := Token.line e.tokens

def stepTexts (e : Evaluation) : List String := e.steps.map Step.text

end Evaluation

/-- Evaluates a text. Blanks are dropped before lexemes are cut, so they separate nothing. -/
def evaluate (entry : String) : Except Failure Evaluation := do
  let kept ← Alphabet.clean entry.toList
  let tokens ← Token.ofChars kept
  let reduction ← reduce tokens
  return ⟨reduction.value, tokens, reduction.steps⟩

end Calculator

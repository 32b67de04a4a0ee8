import Calculator.TrigonometryInDegrees

/-! # Why an entry has no value -/
namespace Calculator

inductive DomainFault
  | divisionByZero
  | negativeRoot
  | pole (f : TrigFunction)
  | notFinite
  deriving DecidableEq

/-- The reasons why a text or a list of tokens has no value. -/
inductive Failure
  /-- A character that is neither blank nor part of any lexeme. -/
  | strayCharacter (c : Char)
  /-- A name that stands for no function. -/
  | unknownFunction (name : String)
  /-- An operation without a value, or with one that is not finite. -/
  | domain (fault : DomainFault)
  /-- A parenthesis without its partner. -/
  | unbalanced
  /-- Operands and operators that do not alternate, or a number without digits. -/
  | malformed
  deriving DecidableEq

def DomainFault.message : DomainFault → String
  | .divisionByZero => "division par zéro"
  | .negativeRoot => "racine carrée d’un nombre négatif"
  | .pole f => f.name ++ " indéfini pour cet angle"
  | .notFinite => "résultat non fini"

def Failure.message : Failure → String
  | .strayCharacter c => "caractère inattendu: '" ++ String.singleton c ++ "'"
  | .unknownFunction name => "fonction inconnue: " ++ name
  | .domain fault => fault.message
  | .unbalanced => "parenthèses non appariées"
  | .malformed => "expression invalide"

end Calculator

import Calculator.Binary64

/-! # Plain decimals

A decimal is a natural number of units of a given decimal place. It is written with digits and at
most one point, never with an exponent.
-/
namespace Calculator

/-- The number `units / 10 ^ places`. -/
structure Decimal where
  units : Nat
  places : Nat
  deriving DecidableEq

namespace Decimal

-- Powers are those of core, whatever else is imported.
local instance (priority := high) natPow : Pow Nat Nat := instPowNat

def value (d : Decimal) : Rat := d.units / (10 ^ d.places : Nat)

/-- Reads digits with at most one point among them; one digit at least is needed. -/
def ofChars? (text : List Char) : Option Decimal :=
  let whole := text.takeWhile (· ≠ '.')
  let fraction := (text.dropWhile (· ≠ '.')).drop 1
  let digits := whole ++ fraction
  if digits ≠ [] ∧ digits.all Char.isDigit then
    some ⟨Nat.ofDigitChars 10 digits 0, fraction.length⟩
  else none

def toFloat (d : Decimal) : Float := Binary64.nearest false d.units (10 ^ d.places)

def dropFinalZeros (digits : List Char) : List Char :=
  (digits.reverse.dropWhile (· = '0')).reverse

def fractionChars (d : Decimal) : List Char :=
  dropFinalZeros (List.leftpad d.places '0' (Nat.toDigits 10 (d.units % 10 ^ d.places)))

/-- The written form: no needless zero on either side, and a point only before further digits. -/
def chars (d : Decimal) : List Char :=
  let whole := Nat.toDigits 10 (d.units / 10 ^ d.places)
  match d.fractionChars with
  | [] => whole
  | fraction => whole ++ '.' :: fraction

end Decimal

end Calculator

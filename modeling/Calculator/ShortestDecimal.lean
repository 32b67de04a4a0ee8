import Calculator.Decimal

/-! # The fewest digits that read back

A number is written as the decimal with the fewest significant digits whose nearest binary64 number
is the number itself. Of two such decimals the nearer one is written, and halfway the greater one.
Seventeen digits are always enough.
-/
namespace Calculator.ShortestDecimal
open Binary64

-- Powers are those of core, whatever else is imported.
local instance (priority := high) natPow : Pow Nat Nat := instPowNat

/-- The places of the last digit that the exact expansion of a finite number may need. -/
def exactPlaces : Nat := 1074

def exactUnits (bits : Nat) : Nat := quantaOfBits bits * 5 ^ exactPlaces

def readsBack (bits : Nat) (d : Decimal) : Bool := nearestBits d.units (10 ^ d.places) == bits

def multiple (factor cut : Nat) : Decimal :=
  ⟨factor * 10 ^ (cut - exactPlaces), exactPlaces - cut⟩

/-- The neighbour of a magnitude among the multiples of `10 ^ cut` units, if one reads back. -/
def neighbour? (bits units cut : Nat) : Option Decimal :=
  let step : Nat := 10 ^ cut
  let below := multiple (units / step) cut
  let above := multiple (units / step + 1) cut
  let nearer := if 2 * (units % step) < step then below else above
  let farther := if 2 * (units % step) < step then above else below
  if readsBack bits nearer then some nearer
  else if readsBack bits farther then some farther
  else none

/-- The decimal with the fewest significant digits that reads back. Behind the search stands the
exact expansion, which always does. -/
def ofBits (bits : Nat) : Decimal :=
  let units := exactUnits bits
  let width := (Nat.toDigits 10 units).length
  let found := (List.range' 1 17).findSome? fun digits => neighbour? bits units (width - digits)
  found.getD ⟨units, exactPlaces⟩

def chars (x : Float) : List Char :=
  if x.isNaN then "NaN".toList
  else
    let magnitude := if x.isInf then "inf".toList else (ofBits (magnitudeBits x)).chars
    if isNegative x then '-' :: magnitude else magnitude

def text (x : Float) : String := String.ofList (chars x)

end Calculator.ShortestDecimal

import Calculator.Decimal

/-! # Numbers rounded to a fixed number of places

The exact value is rounded to the nearest multiple of the last place, a half to the even one, and
written without needless zeros. A rounded value of zero has no sign.
-/
namespace Calculator.RoundedDecimal
open Binary64

-- Powers are those of core, whatever else is imported.
local instance (priority := high) natPow : Pow Nat Nat := instPowNat

def magnitude (x : Float) (places : Nat) : Decimal :=
  ⟨roundHalfEven (quanta x * 10 ^ places) resolution, places⟩

def finiteChars (x : Float) (places : Nat) : List Char :=
  let rounded := magnitude x places
  if isNegative x ∧ rounded.units ≠ 0 then '-' :: rounded.chars else rounded.chars

/-- The written form of any number; what is not finite has no places to round to. -/
def text (x : Float) (places : Nat) : String :=
  if x.isNaN then "NaN"
  else if x.isInf then if isNegative x then "-inf" else "inf"
  else String.ofList (finiteChars x places)

end Calculator.RoundedDecimal

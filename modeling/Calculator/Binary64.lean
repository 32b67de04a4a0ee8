/-! # Binary64 numbers as whole numbers of quanta

The least positive binary64 number is the quantum, `2 ^ -1074`. Every finite number is, up to its
sign, a whole number of quanta, so comparing and rounding exact values is done on natural numbers.
-/
namespace Calculator.Binary64

-- Powers are those of core, whatever else is imported.
local instance (priority := high) natPow : Pow Nat Nat := instPowNat

def resolution : Nat := 2 ^ (1074 : Nat)

def infinityBits : Nat := 0x7FF0000000000000

def isNegative (x : Float) : Bool := 2 ^ (63 : Nat) ≤ x.toBits.toNat

def magnitudeBits (x : Float) : Nat := x.toBits.toNat % 2 ^ (63 : Nat)

/-- The quanta of a magnitude word. While the exponent field is zero the fraction counts as it is;
from one on its leading bit is implicit, and each further exponent doubles it. -/
def quantaOfBits (bits : Nat) : Nat :=
  if bits / 2 ^ (52 : Nat) = 0 then bits
  else (2 ^ (52 : Nat) + bits % 2 ^ (52 : Nat)) * 2 ^ (bits / 2 ^ (52 : Nat) - 1)

def quanta (x : Float) : Nat := quantaOfBits (magnitudeBits x)

def value (x : Float) : Rat :=
  let magnitude : Rat := quanta x / resolution
  if isNegative x then -magnitude else magnitude

/-- The natural number nearest to a quotient; a half goes to the even neighbour. -/
def roundHalfEven (num den : Nat) : Nat :=
  let floor := num / den
  let excess := 2 * (num % den)
  if excess < den ∨ (excess = den ∧ floor % 2 = 0) then floor else floor + 1

/-- The magnitude word nearest to a quotient, ties to even. At most 53 bits are kept, so the weight
of the last one decides the exponent, and a carry out of the fraction raises the exponent by
itself. What rounds beyond the greatest finite number gives infinity. -/
def nearestBits (num den : Nat) : Nat :=
  let scaled := num * resolution
  let shift := (scaled / den).log2 - 52
  min (shift * 2 ^ (52 : Nat) + roundHalfEven scaled (den * 2 ^ shift)) infinityBits

def nearest (negative : Bool) (num den : Nat) : Float :=
  Float.ofBits (UInt64.ofNat (nearestBits num den + if negative then 2 ^ (63 : Nat) else 0))

end Calculator.Binary64

import Calculator.Binary64

/-! # Trigonometric functions of angles in degrees

Angles are reduced to one turn. At multiples of 30 and of 45 degrees every function has a table of
the answers that are multiples of a half or poles. All other angles are computed in radians.
-/
namespace Calculator

inductive TrigFunction | sin | cos | tan | cot deriving DecidableEq

/-- A function of an angle has a value or, at a pole, none. -/
inductive TrigValue
  | value (x : Float)
  | pole
  deriving DecidableEq

namespace TrigFunction
open Binary64

def name : TrigFunction → String
  | .sin => "sin"
  | .cos => "cos"
  | .tan => "tan"
  | .cot => "cot"

/-- The same angle within one turn: the remainder is exact and rounded once. -/
def withinTurn (x : Float) : Float :=
  if x.isFinite then
    let turn := 360 * resolution
    let rest := quanta x % turn
    if isNegative x ∧ rest ≠ 0 then nearest false (turn - rest) resolution
    else nearest (isNegative x) rest resolution
  else 0 / 0

def isWhole (x : Float) : Bool := x.isFinite && quanta x % resolution = 0

def truncated (x : Float) : Int :=
  let magnitude : Int := quanta x / resolution
  if isNegative x then -magnitude else magnitude

/-- The degrees within one turn of a multiple of 30 or of 45 degrees. -/
def remarkable? (x : Float) : Option Int :=
  if isWhole x then
    let degrees := truncated (withinTurn x)
    if degrees % 30 = 0 ∨ degrees % 45 = 0 then some degrees else none
  else none

/-- The exact answers, by the degrees within one turn. -/
def tabled? (f : TrigFunction) (degrees : Int) : Option TrigValue :=
  match f with
  | .sin =>
    match degrees with
    | 0 | 180 => some (.value 0)
    | 30 | 150 => some (.value 0.5)
    | 210 | 330 => some (.value (-0.5))
    | 90 => some (.value 1)
    | 270 => some (.value (-1))
    | _ => none
  | .cos =>
    match degrees with
    | 0 => some (.value 1)
    | 180 => some (.value (-1))
    | 90 | 270 => some (.value 0)
    | 60 | 300 => some (.value 0.5)
    | 120 | 240 => some (.value (-0.5))
    | _ => none
  | .tan =>
    match degrees with
    | 0 | 180 => some (.value 0)
    | 45 | 225 => some (.value 1)
    | 135 | 315 => some (.value (-1))
    | 90 | 270 => some .pole
    | _ => none
  | .cot =>
    match degrees with
    | 90 | 270 => some (.value 0)
    | 45 | 225 => some (.value 1)
    | 135 | 315 => some (.value (-1))
    | 0 | 180 => some .pole
    | _ => none

def exactAnswer? (f : TrigFunction) (x : Float) : Option TrigValue :=
  (remarkable? x).bind f.tabled?

def degree : Float := 0.017453292519943295

def computed (f : TrigFunction) (x : Float) : Float :=
  let angle := withinTurn x * degree
  match f with
  | .sin => angle.sin
  | .cos => angle.cos
  | .tan => angle.tan
  | .cot => 1 / angle.tan

def apply (f : TrigFunction) (x : Float) : TrigValue :=
  (f.exactAnswer? x).getD (.value (f.computed x))

end TrigFunction

end Calculator

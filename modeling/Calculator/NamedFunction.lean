import Calculator.Failure

/-! # Functions called by name -/
namespace Calculator

inductive NamedFunction
  | sqrt
  | trig (f : TrigFunction)
  deriving DecidableEq

namespace NamedFunction

def all : List NamedFunction := [.sqrt, .trig .sin, .trig .cos, .trig .tan, .trig .cot]

def name : NamedFunction → String
  | .sqrt => "sqrt"
  | .trig f => f.name

def ofName? (name : String) : Option NamedFunction := all.find? (·.name = name)

@[simp] theorem ofName?_name (f : NamedFunction) : ofName? f.name = some f := by
  rcases f with _ | _ | _ | _ | _ <;> decide

theorem name_of_ofName? {name : String} {f : NamedFunction} (h : ofName? name = some f) :
    f.name = name := by
  simpa using List.find?_some h

/-- The value at an argument, which may still be infinite or no number. -/
def apply (f : NamedFunction) (x : Float) : Except DomainFault Float :=
  match f with
  | .sqrt => if x < 0 then .error .negativeRoot else .ok x.sqrt
  | .trig f =>
    match f.apply x with
    | .value y => .ok y
    | .pole => .error (.pole f)

end NamedFunction

end Calculator

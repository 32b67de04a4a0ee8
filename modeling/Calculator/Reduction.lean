import Calculator.ReductionStep
import Calculator.Token

/-! # Reduction of tokens to a value

Tokens are read once, from left to right. An operator waits until a later token shows that its
right operand is complete; so what waits is kept apart from the values, the newest first. A sign
in front of an operand binds like a power, hence more closely than a product. A function waits
below its parenthesis and is performed when that closes.
-/
namespace Calculator

/-- What waits to be performed or closed. -/
inductive Pending
  | operator (o : BinaryOperator)
  | negation
  | function (f : NamedFunction)
  | paren
  deriving DecidableEq

/-- How closely an element binds; none for those that bound a group. -/
def Pending.precedence? : Pending → Option Nat
  | .operator o => some o.precedence
  | .negation => some BinaryOperator.pow.precedence
  | .function _ => none
  | .paren => none

/-- The element must be performed before the operator may wait on top of it. -/
def Pending.goesBefore (o : BinaryOperator) (p : Pending) : Bool :=
  match p.precedence? with
  | none => false
  | some level => if o.groupsRight then o.precedence < level else o.precedence ≤ level

/-- The operands not yet used and the steps done, both newest first. -/
structure Work where
  values : List Float
  steps : List Step
  deriving DecidableEq

namespace Work

def record (w : Work) (values : List Float) : Except DomainFault Step → Except Failure Work
  | .ok step => .ok ⟨step.result :: values, step :: w.steps⟩
  | .error fault => .error (.domain fault)

def perform (w : Work) : Pending → Except Failure Work
  | .operator o =>
    match w.values with
    | right :: left :: values => w.record values (Step.ofOperator o left right)
    | _ => .error .malformed
  | .negation =>
    match w.values with
    | operand :: values => w.record values (.ok (Step.ofNegation operand))
    | [] => .error .malformed
  | .function f =>
    match w.values with
    | argument :: values => w.record values (Step.ofFunction f argument)
    | [] => .error .malformed
  | .paren => .error .unbalanced

/-- Performs the newest elements for as long as they are due, and leaves the others waiting. -/
def settle (due : Pending → Bool) : List Pending → Work → Except Failure (List Pending × Work)
  | [], w => .ok ([], w)
  | p :: pending, w =>
    if due p then do settle due pending (← w.perform p) else .ok (p :: pending, w)

end Work

/-- A point between two tokens. -/
structure Reading where
  work : Work
  pending : List Pending
  expectsOperand : Bool
  deriving DecidableEq

namespace Reading

def start : Reading := ⟨⟨[], []⟩, [], true⟩

def takeNumber (r : Reading) (x : Float) : Except Failure Reading :=
  match requireFinite x with
  | .ok x => .ok ⟨⟨x :: r.work.values, r.work.steps⟩, r.pending, false⟩
  | .error fault => .error (.domain fault)

def await (r : Reading) (p : Pending) : Reading := ⟨r.work, p :: r.pending, true⟩

/-- Reads a token where an operand must start. `next` is the token behind it: a name is only
accepted with its parenthesis. -/
def readOperand (r : Reading) (next : Option Token) : Token → Except Failure Reading
  | .number x => r.takeNumber x
  | .leftParen => .ok (r.await .paren)
  | .function name =>
    match NamedFunction.ofName? name with
    | none => .error (.unknownFunction name)
    | some f => if next = some .leftParen then .ok (r.await (.function f)) else .error .malformed
  | .rightParen => if r.pending.contains .paren then .error .malformed else .error .unbalanced
  | .operator .add => .ok r
  | .operator .sub => .ok (r.await .negation)
  | .operator _ => .error .malformed

/-- Closes the innermost group, and performs the function whose argument it is. -/
def close (r : Reading) : Except Failure Reading := do
  match ← r.work.settle (· ≠ .paren) r.pending with
  | (.paren :: .function f :: pending, work) =>
    let work ← work.perform (.function f)
    return ⟨work, pending, false⟩
  | (.paren :: pending, work) => return ⟨work, pending, false⟩
  | _ => .error .unbalanced

def readOperator (r : Reading) : Token → Except Failure Reading
  | .operator o => do
    let (pending, work) ← r.work.settle (Pending.goesBefore o) r.pending
    return ⟨work, .operator o :: pending, true⟩
  | .rightParen => r.close
  | _ => .error .malformed

def read (r : Reading) (t : Token) (next : Option Token) : Except Failure Reading :=
  if r.expectsOperand then r.readOperand next t else r.readOperator t

def readAll (r : Reading) (behind : Option Token) : List Token → Except Failure Reading
  | [] => .ok r
  | t :: ts => do (← r.read t (ts.head?.or behind)).readAll behind ts

end Reading

/-- The value of a list of tokens and the steps that gave it, in the order they were done. -/
structure Reduction where
  value : Float
  steps : List Step
  deriving DecidableEq

/-- Performs all that still waits. An open parenthesis is reported before a missing operand. -/
def Reading.finish (r : Reading) : Except Failure Reduction :=
  if r.pending.contains .paren then .error .unbalanced
  else if r.expectsOperand then .error .malformed
  else do
    match ← r.work.settle (fun _ => true) r.pending with
    | (_, ⟨[value], steps⟩) => return ⟨value, steps.reverse⟩
    | _ => .error .malformed

def reduce (ts : List Token) : Except Failure Reduction := do
  (← Reading.start.readAll none ts).finish

end Calculator

import Calculator.Evaluation
import Calculator.RoundedDecimal

/-! # The desk

The desk holds what a session remembers: the entry, the last value and how it is shown, the last
failure, and how the value was derived. Every event gives the next desk.
-/
namespace Calculator

/-- How a value was derived, as shown: its tokens on a line, and its steps line by line. -/
structure Derivation where
  tokens : String
  steps : String
  deriving DecidableEq

def Derivation.empty : Derivation := ⟨"", ""⟩

def Evaluation.derivation (e : Evaluation) : Derivation := ⟨e.tokenLine, Step.lines e.steps⟩

/-- What a session remembers. `shown` is the written result, empty before the first. -/
structure Desk where
  entry : String
  value : Option Float
  shown : String
  error : String
  derivation : Derivation
  decimals : Nat
  takesFocus : Bool
  panelOpen : Bool
  deriving DecidableEq

inductive Button | equals | clearEntry | clearAll | panel deriving DecidableEq

/-- Changes that other parts of a program may ask for. -/
inductive Request
  | setDecimals (decimals : Nat)
  | clearResults
  | clearEntry
  | clearAll
  | fail (message : String)
  | deposit (value : Float) (derivation : Derivation)
  deriving DecidableEq

/-- What may happen to a desk: all but requests are done by a user in front of the screen. -/
inductive Event
  | edit (text : String)
  | draw
  | enter
  | press (b : Button)
  | dial (n : Int)
  | request (q : Request)
  deriving DecidableEq

namespace Desk

def defaultDecimals : Nat := 5

def maxDecimals : Nat := 15

def initial : Desk := ⟨"", none, "", "", .empty, defaultDecimals, true, false⟩

def clearResults (d : Desk) : Desk :=
  { d with value := none, shown := "", error := "", derivation := .empty, takesFocus := true }

def clearEntry (d : Desk) : Desk := { d with entry := "", takesFocus := true }

def clearAll (d : Desk) : Desk := { d.clearResults with entry := "", decimals := defaultDecimals }

/-- Shows a failure. The last result stays, but nothing is derived any more. -/
def fail (d : Desk) (message : String) : Desk :=
  { d with error := message, derivation := .empty, takesFocus := true }

def deposit (d : Desk) (value : Float) (derivation : Derivation) : Desk :=
  { d with
    value := some value, shown := RoundedDecimal.text value d.decimals, error := "",
    derivation := derivation, takesFocus := true }

def setDecimals (d : Desk) (decimals : Nat) : Desk :=
  let decimals := min decimals maxDecimals
  let shown := match d.value with
    | some value => RoundedDecimal.text value decimals
    | none => d.shown
  { d with decimals := decimals, shown := shown, takesFocus := true }

def evaluateEntry (d : Desk) : Desk :=
  match evaluate d.entry with
  | .ok e => d.deposit e.value e.derivation
  | .error failure => d.fail failure.message

/-- Draws the screen, which gives the focus to the entry if that was asked for. -/
def draw (d : Desk) : Desk := { d with takesFocus := false }

def press (d : Desk) : Button → Desk
  | .equals => d.evaluateEntry
  | .clearEntry => d.clearEntry
  | .clearAll => d.clearAll
  | .panel => { d with panelOpen := !d.panelOpen }

/-- Enters a number of decimals in its field. The field keeps to its range, and only a change
counts. -/
def dial (d : Desk) (n : Int) : Desk :=
  let decimals := min n.toNat maxDecimals
  if decimals = d.decimals then d else d.setDecimals decimals

def answer (d : Desk) : Request → Desk
  | .setDecimals decimals => d.setDecimals decimals
  | .clearResults => d.clearResults
  | .clearEntry => d.clearEntry
  | .clearAll => d.clearAll
  | .fail message => d.fail message
  | .deposit value derivation => d.deposit value derivation

/-- The desk after an event. Whatever is done on the screen is done after it is drawn. -/
def after (d : Desk) : Event → Desk
  | .edit text => { d with entry := text }
  | .draw => d.draw
  | .enter => d.draw.evaluateEntry
  | .press b => d.draw.press b
  | .dial n => d.draw.dial n
  | .request q => d.answer q

def afterAll (events : List Event) : Desk := events.foldl after initial

end Desk

end Calculator

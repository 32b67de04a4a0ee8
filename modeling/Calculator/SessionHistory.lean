import Calculator.Desk

/-! # Readings of a session's history

What a desk holds can be read off the events themselves, each part from the last event that bears
on it. Histories are lists of events, the newest first, so every reading looks back in time.
-/
namespace Calculator.SessionHistory

def emptiesEntry : Event → Bool
  | .press .clearEntry | .press .clearAll | .request .clearEntry | .request .clearAll => true
  | _ => false

def startsAnew : Event → Bool
  | .press .clearAll | .request .clearAll => true
  | _ => false

def wipes : Event → Bool
  | .request .clearResults => true
  | e => startsAnew e

def evaluates : Event → Bool
  | .enter | .press .equals => true
  | _ => false

/-- The last text entered and not emptied since. -/
def entry : List Event → String
  | [] => ""
  | .edit text :: _ => text
  | e :: earlier => if emptiesEntry e then "" else entry earlier

/-- The last number of decimals asked for since everything was set back. -/
def decimals : List Event → Nat
  | [] => Desk.defaultDecimals
  | .dial n :: _ => min n.toNat Desk.maxDecimals
  | .request (.setDecimals n) :: _ => min n Desk.maxDecimals
  | e :: earlier => if startsAnew e then Desk.defaultDecimals else decimals earlier

/-- What an event led to after the earlier ones: a value with its derivation, or a message. -/
def outcome? (earlier : List Event) : Event → Option (Except String (Float × Derivation))
  | .request (.fail message) => some (.error message)
  | .request (.deposit value derivation) => some (.ok (value, derivation))
  | e =>
    if evaluates e then
      match evaluate (entry earlier) with
      | .ok result => some (.ok (result.value, result.derivation))
      | .error failure => some (.error failure.message)
    else none

def lastOutcome? : List Event → Option (Except String (Float × Derivation))
  | [] => none
  | e :: earlier =>
    if wipes e then none
    else
      match outcome? earlier e with
      | some outcome => some outcome
      | none => lastOutcome? earlier

/-- The last value since results were forgotten; failures in between do not count. -/
def lastValue? : List Event → Option Float
  | [] => none
  | e :: earlier =>
    if wipes e then none
    else
      match outcome? earlier e with
      | some (.ok (value, _)) => some value
      | _ => lastValue? earlier

def error (history : List Event) : String :=
  match lastOutcome? history with
  | some (.error message) => message
  | _ => ""

def derivation (history : List Event) : Derivation :=
  match lastOutcome? history with
  | some (.ok (_, derivation)) => derivation
  | _ => .empty

def shown (history : List Event) : String :=
  match lastValue? history with
  | some value => RoundedDecimal.text value (decimals history)
  | none => ""

def panelOpen (history : List Event) : Bool := history.count (.press .panel) % 2 = 1

/-- The entry is to take the focus, by the last event that bears on it. Whatever draws gives the
focus away first, and what then changes the desk asks for it again. -/
def takesFocus : List Event → Bool
  | [] => true
  | .edit _ :: earlier => takesFocus earlier
  | .draw :: _ => false
  | .press .panel :: _ => false
  | .dial n :: earlier => min n.toNat Desk.maxDecimals ≠ decimals earlier
  | _ => true

def desk (history : List Event) : Desk where
  entry := entry history
  value := lastValue? history
  shown := shown history
  error := error history
  derivation := derivation history
  decimals := decimals history
  takesFocus := takesFocus history
  panelOpen := panelOpen history

end Calculator.SessionHistory

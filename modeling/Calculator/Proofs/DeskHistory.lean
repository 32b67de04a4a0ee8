import Calculator.SessionHistory
import Mathlib.Data.List.Induction

/-!
# The desk after a run

After any run of events the desk is what its history tells, part by part: each part is read off the
last event that bears on it. One event changes the desk as it changes the readings, whatever came
before, and a run is one event after the other.
-/
namespace Calculator.SessionHistory

variable {history : List Event} {e : Event}

section Panel

theorem panelOpen_of_ne (h : e ≠ .press .panel) :
    panelOpen (e :: history) = panelOpen history := by
  rw [panelOpen, panelOpen, List.count_cons_of_ne h]

theorem panelOpen_press : panelOpen (.press .panel :: history) = !panelOpen history := by
  rw [panelOpen, panelOpen, List.count_cons_self]
  by_cases odd : history.count (.press .panel) % 2 = 1
  · simp [odd]
    omega
  · simp [odd]
    omega

end Panel

section Outcomes

/-- The event leads to the outcome, and bears on nothing else but the focus. -/
structure LeadsTo (history : List Event) (e : Event)
    (outcome : Except String (Float × Derivation)) : Prop where
  found : outcome? history e = some outcome
  wipes : wipes e = false
  entry : entry (e :: history) = entry history
  decimals : decimals (e :: history) = decimals history
  focus : takesFocus (e :: history) = true
  panel : e ≠ .press .panel

variable {value : Float} {derivation : Derivation} {message : String}

theorem LeadsTo.lastOutcome? {outcome : Except String (Float × Derivation)}
    (h : LeadsTo history e outcome) : lastOutcome? (e :: history) = some outcome := by
  rw [SessionHistory.lastOutcome?, h.wipes, h.found]
  rfl

theorem LeadsTo.deposit (h : LeadsTo history e (.ok (value, derivation))) :
    desk (e :: history) = (desk history).deposit value derivation := by
  have last : lastValue? (e :: history) = some value := by
    rw [lastValue?, h.wipes, h.found]
    rfl
  simp only [desk, Desk.deposit, shown, error, SessionHistory.derivation, h.lastOutcome?, last,
    h.entry, h.decimals, h.focus, panelOpen_of_ne h.panel]

theorem LeadsTo.fail (h : LeadsTo history e (.error message)) :
    desk (e :: history) = (desk history).fail message := by
  have last : lastValue? (e :: history) = lastValue? history := by
    rw [lastValue?, h.wipes, h.found]
    rfl
  simp only [desk, Desk.fail, shown, error, SessionHistory.derivation, h.lastOutcome?, last,
    h.entry, h.decimals, h.focus, panelOpen_of_ne h.panel]

theorem desk_deposit :
    desk (.request (.deposit value derivation) :: history) =
      (desk history).deposit value derivation :=
  LeadsTo.deposit ⟨rfl, rfl, rfl, rfl, rfl, by simp⟩

theorem desk_fail :
    desk (.request (.fail message) :: history) = (desk history).fail message :=
  LeadsTo.fail ⟨rfl, rfl, rfl, rfl, rfl, by simp⟩

/-- Evaluating the entry leads to its value or to the message of its failure. -/
theorem desk_evaluates (he : evaluates e = true) :
    desk (e :: history) = (desk history).draw.evaluateEntry := by
  have entered : (desk history).draw.entry = entry history := rfl
  have kinds : e = .enter ∨ e = .press .equals := by
    unfold evaluates at he
    split at he <;> simp_all
  have leads (outcome : Except String (Float × Derivation))
      (found : outcome? history e = some outcome) : LeadsTo history e outcome := by
    obtain rfl | rfl := kinds <;> exact ⟨found, rfl, rfl, rfl, rfl, by simp⟩
  rw [Desk.evaluateEntry, entered]
  cases result : evaluate (entry history) with
  | ok r =>
    refine (leads (.ok (r.value, r.derivation)) ?_).deposit
    obtain rfl | rfl := kinds <;> simp [outcome?, evaluates, result]
  | error failure =>
    refine (leads (.error failure.message) ?_).fail
    obtain rfl | rfl := kinds <;> simp [outcome?, evaluates, result]

end Outcomes

section Decimals

theorem shown_none (h : lastValue? history = none) : shown history = "" := by
  rw [shown, h]

theorem setDecimals_desk (n : Nat) :
    (desk history).setDecimals n =
      { desk history with
        decimals := min n Desk.maxDecimals
        shown := match lastValue? history with
          | some value => RoundedDecimal.text value (min n Desk.maxDecimals)
          | none => ""
        takesFocus := true } := by
  have unfolded : (desk history).setDecimals n =
      { desk history with
        decimals := min n Desk.maxDecimals
        shown := match lastValue? history with
          | some value => RoundedDecimal.text value (min n Desk.maxDecimals)
          | none => shown history
        takesFocus := true } := rfl
  rw [unfolded]
  cases last : lastValue? history with
  | some value => rfl
  | none => simp only [shown_none last]

theorem desk_setDecimals (n : Nat) :
    desk (.request (.setDecimals n) :: history) = (desk history).setDecimals n := by
  rw [setDecimals_desk, desk, panelOpen_of_ne (by simp)]
  rfl

theorem desk_dial (n : Int) : desk (.dial n :: history) = (desk history).draw.dial n := by
  have found : (desk history).draw.decimals = decimals history := rfl
  have read : desk (.dial n :: history) =
      { desk history with
        decimals := min n.toNat Desk.maxDecimals
        shown := match lastValue? history with
          | some value => RoundedDecimal.text value (min n.toNat Desk.maxDecimals)
          | none => ""
        takesFocus := min n.toNat Desk.maxDecimals ≠ decimals history } := by
    rw [desk, panelOpen_of_ne (by simp)]
    rfl
  rw [read, Desk.dial, found]
  by_cases same : min n.toNat Desk.maxDecimals = decimals history
  · rw [if_pos same, same]
    simp only [ne_eq, not_true, decide_false]
    rfl
  · have changed : (desk history).draw.setDecimals (min n.toNat Desk.maxDecimals) =
        (desk history).setDecimals (min n.toNat Desk.maxDecimals) := rfl
    rw [if_neg same, changed, setDecimals_desk, Nat.min_assoc, Nat.min_self]
    simp only [ne_eq, same, not_false_eq_true, decide_true]

end Decimals

/-- Each event changes the desk as it changes the readings of the history. -/
theorem desk_cons (e : Event) (history : List Event) :
    desk (e :: history) = (desk history).after e := by
  cases e with
  | edit text =>
    rw [desk, panelOpen_of_ne (by simp)]
    rfl
  | draw =>
    rw [desk, panelOpen_of_ne (by simp)]
    rfl
  | enter => exact desk_evaluates rfl
  | press b =>
    cases b with
    | equals => exact desk_evaluates rfl
    | clearEntry | clearAll =>
      rw [desk, panelOpen_of_ne (by simp)]
      rfl
    | panel =>
      rw [desk, panelOpen_press]
      rfl
  | dial n => exact desk_dial n
  | request q =>
    cases q with
    | setDecimals n => exact desk_setDecimals n
    | fail message => exact desk_fail
    | deposit value derivation => exact desk_deposit
    | clearResults | clearEntry | clearAll =>
      rw [desk, panelOpen_of_ne (by simp)]
      rfl

theorem decimals_le (history : List Event) : decimals history ≤ Desk.maxDecimals := by
  have default : Desk.defaultDecimals ≤ Desk.maxDecimals := by decide
  fun_induction decimals history with
  | case1 => exact default
  | case2 n => exact Nat.min_le_right _ _
  | case3 n => exact Nat.min_le_right _ _
  | case4 => exact default
  | case5 e earlier _ _ _ ih => exact ih

/-- After every run of events, in whatever order, the desk holds what the readings of the history
tell, and never more decimals than may be shown. -/
theorem afterAll_eq_desk (events : List Event) :
    Desk.afterAll events = desk events.reverse ∧
      (Desk.afterAll events).decimals ≤ Desk.maxDecimals := by
  have whole : Desk.afterAll events = desk events.reverse := by
    induction events using List.reverseRecOn with
    | nil => rfl
    | append_singleton events e ih =>
      have last : Desk.afterAll (events ++ [e]) = (Desk.afterAll events).after e := by
        rw [Desk.afterAll, List.foldl_append]
        rfl
      rw [last, ih, List.reverse_append, List.reverse_singleton, List.singleton_append, desk_cons]
  refine ⟨whole, ?_⟩
  rw [whole]
  exact decimals_le events.reverse

end Calculator.SessionHistory

import Calculator.Screen
import Calculator.Proofs.DeskHistory
import Calculator.Proofs.DeskCoherence

/-!
# The screen after a run

What a user sees tells what was done. The screen only asks whether a text is empty, which is enough:
no message, no written number and no line of tokens is empty, and no written number is the dash. So
the labels are read off the evaluations since everything was set back, the decimals last asked for
and how often the panel's button was pressed.
-/
namespace Calculator

section Texts

theorem append_ne_empty (s : String) {t : String} (h : t ≠ "") : s ++ t ≠ "" :=
  fun empty => h (String.append_eq_empty_iff.mp empty).2

theorem Failure.message_ne_empty (f : Failure) : f.message ≠ "" := by
  cases f with
  | strayCharacter c => exact append_ne_empty _ (by decide)
  | unknownFunction name =>
    intro empty
    have start := (String.append_eq_empty_iff.mp empty).1
    exact absurd start (by decide)
  | domain fault =>
    cases fault with
    | pole f => exact append_ne_empty f.name (by decide)
    | divisionByZero | negativeRoot | notFinite => decide
  | unbalanced | malformed => decide

theorem RoundedDecimal.Written.ne_empty {s : String} (h : RoundedDecimal.Written s.toList) :
    s ≠ "" := by
  rintro rfl
  generalize nothing : "".toList = l at h
  cases h with
  | unsigned plain =>
    cases plain with
    | whole nonempty => exact nonempty nothing.symm
    | pointed nonempty => simp at nothing
  | negative => simp at nothing

theorem RoundedDecimal.Written.ne_dash {s : String} (h : RoundedDecimal.Written s.toList) :
    s ≠ Screen.dash := by
  rintro rfl
  obtain digit | ⟨sign, -⟩ := h.cases_cons
  · cases digit
  · cases sign

theorem Evaluation.tokenLine_ne_empty {entry : String} {e : Evaluation}
    (h : evaluate entry = .ok e) : e.tokenLine ≠ "" := by
  obtain ⟨kept, -, read, reduced⟩ := exists_read_of_evaluate h
  have again : evaluate e.tokenLine = .ok e := evaluate_line (readable_of_reduce read reduced) reduced
  intro empty
  have nothing : evaluate "" = .error .malformed := by decide +kernel
  rw [empty, nothing] at again
  cases again

end Texts

namespace Screen

/-- What is to be seen between the labels that never change. -/
structure Picture where
  error : Option String
  result : String
  panel : Option Derivation

namespace Picture

def labels (p : Picture) : List String :=
  ["Calculatrice de base", "Entrée :", "Affichage :"] ++ p.error.toList
    ++ ["Résultat :", p.result]
    ++ (match p.panel with
      | some d => ["Jetons :", d.tokens, "Réductions :", d.steps]
      | none => [])

theorem labels_injective : Function.Injective labels := by
  rintro ⟨error, result, panel⟩ ⟨error', result', panel'⟩ same
  rcases error with _ | message <;> rcases error' with _ | message' <;>
    rcases panel with _ | ⟨tokens, steps⟩ <;> rcases panel' with _ | ⟨tokens', steps'⟩ <;>
    simp_all [labels]

end Picture

def picture (d : Desk) : Picture where
  error := if d.error = "" then none else some d.error
  result := if d.shown = "" then dash else d.shown
  panel := if d.panelOpen then some d.derivation else none

theorem eq_derivation_of_mem_panel {d : Desk} {shown : Derivation} (h : shown ∈ (picture d).panel) :
    shown = d.derivation := by
  simp only [picture, Option.mem_def, Option.ite_none_right_eq_some, Option.some.injEq] at h
  exact h.2.symm

theorem labels_picture (d : Desk) : (picture d).labels = labels d := by
  rw [labels, Picture.labels, picture]
  by_cases failed : d.error = "" <;> cases opened : d.panelOpen <;> simp [failed]

end Screen

namespace SessionHistory

/-- The evaluations since everything was last set back, the newest first, each of the entry as it
then was. -/
def evaluations : List Event → List (Except Failure Evaluation)
  | [] => []
  | e :: earlier =>
    if startsAnew e then []
    else if evaluates e then evaluate (entry earlier) :: evaluations earlier
    else evaluations earlier

variable {history : List Event}

theorem afterAll_reverse (history : List Event) : Desk.afterAll history.reverse = desk history := by
  induction history with
  | nil => rfl
  | cons e history ih =>
    rw [List.reverse_cons, Desk.afterAll, List.foldl_append, ← Desk.afterAll, ih, desk_cons]
    rfl

def outcomeOf : Except Failure Evaluation → Except String (Float × Derivation)
  | .ok e => .ok (e.value, e.derivation)
  | .error failure => .error failure.message

/-- An event that a user brings about has an outcome only if it evaluates the entry. -/
theorem outcome?_of_user {e : Event} (user : ∀ q, e ≠ .request q) (earlier : List Event) :
    outcome? earlier e =
      if evaluates e then some (outcomeOf (evaluate (entry earlier))) else none := by
  cases e with
  | request q => exact absurd rfl (user q)
  | edit _ | draw | enter | press _ | dial _ =>
    simp only [outcome?]
    split
    · cases evaluate (entry earlier) <;> rfl
    · rfl

theorem wipes_of_user {e : Event} (user : ∀ q, e ≠ .request q) : wipes e = startsAnew e := by
  cases e with
  | request q => exact absurd rfl (user q)
  | edit _ | draw | enter | press _ | dial _ => rfl

/-- The last outcome of what a user does is that of the last evaluation. -/
theorem lastOutcome?_of_user (user : ∀ q, .request q ∉ history) :
    lastOutcome? history = (evaluations history).head?.map outcomeOf := by
  induction history with
  | nil => rfl
  | cons e earlier ih =>
    have first (q : Request) : e ≠ .request q := fun same => user q (same ▸ List.mem_cons_self)
    have rest := ih fun q mem => user q (List.mem_cons_of_mem e mem)
    rw [lastOutcome?, evaluations, wipes_of_user first, outcome?_of_user first]
    by_cases anew : startsAnew e = true
    · simp [anew]
    · by_cases evaluated : evaluates e = true
      · simp [anew, evaluated]
      · simp [anew, evaluated, rest]

/-- The last value is that of the last evaluation that succeeded. -/
theorem lastValue?_of_user (user : ∀ q, .request q ∉ history) :
    lastValue? history = ((evaluations history).findSome? Except.toOption).map Evaluation.value := by
  induction history with
  | nil => rfl
  | cons e earlier ih =>
    have first (q : Request) : e ≠ .request q := fun same => user q (same ▸ List.mem_cons_self)
    have rest := ih fun q mem => user q (List.mem_cons_of_mem e mem)
    rw [lastValue?, evaluations, wipes_of_user first, outcome?_of_user first]
    by_cases anew : startsAnew e = true
    · simp [anew]
    · by_cases evaluated : evaluates e = true
      · simp only [anew, evaluated, if_true, Bool.false_eq_true, if_false, List.findSome?_cons]
        cases evaluate (entry earlier) with
        | ok r => rfl
        | error failure => exact rest
      · simpa only [anew, evaluated, Bool.false_eq_true, if_false] using rest

theorem exists_entry_of_mem {e : Evaluation} (h : .ok e ∈ evaluations history) :
    ∃ entry, evaluate entry = .ok e := by
  fun_induction evaluations history with
  | case1 => cases h
  | case2 => cases h
  | case3 _ earlier _ _ ih =>
    obtain now | before := List.mem_cons.mp h
    · exact ⟨entry earlier, now.symm⟩
    · exact ih before
  | case4 _ _ _ _ ih => exact ih h

theorem lastSuccess_mem {e : Evaluation}
    (h : (evaluations history).findSome? Except.toOption = some e) :
    .ok e ∈ evaluations history := by
  obtain ⟨outcome, mem, found⟩ := List.exists_of_findSome?_eq_some h
  cases outcome with
  | error failure => cases found
  | ok e' =>
    cases found
    exact mem

theorem lastSuccess_none_iff :
    (evaluations history).findSome? Except.toOption = none ↔ ∀ e, .ok e ∉ evaluations history := by
  rw [List.findSome?_eq_none_iff]
  constructor
  · intro none e mem
    cases none _ mem
  · intro none outcome mem
    cases outcome with
    | error failure => rfl
    | ok e => exact absurd mem (none e)

section Picture

open Screen

variable {message : String} {e : Evaluation}

theorem picture_error_of_user (user : ∀ q, .request q ∉ history) :
    (picture (desk history)).error = some message ↔
      ∃ failure, (evaluations history).head? = some (.error failure) ∧
        failure.message = message := by
  have last : (desk history).error = SessionHistory.error history := rfl
  rw [picture, last, SessionHistory.error, lastOutcome?_of_user user]
  rcases (evaluations history).head? with _ | failure | e
  · simp
  · simp [outcomeOf, failure.message_ne_empty]
  · simp [outcomeOf]

theorem written_of_mem (h : .ok e ∈ evaluations history) (places : Nat) :
    RoundedDecimal.Written (RoundedDecimal.text e.value places).toList := by
  obtain ⟨entry, evaluated⟩ := exists_entry_of_mem h
  obtain ⟨-, -, -, reduced⟩ := exists_read_of_evaluate evaluated
  exact RoundedDecimal.written_text (accounts_of_reduce reduced).value_finite places

theorem picture_result_of_user (user : ∀ q, .request q ∉ history) :
    (picture (desk history)).result =
      ((evaluations history).findSome? Except.toOption).elim dash fun e =>
        RoundedDecimal.text e.value (decimals history) := by
  have last : (desk history).shown = shown history := rfl
  rw [picture, last, shown, lastValue?_of_user user]
  cases found : (evaluations history).findSome? Except.toOption with
  | none => rfl
  | some e => exact if_neg (written_of_mem (lastSuccess_mem found) _).ne_empty

theorem picture_result_eq_dash_iff (user : ∀ q, .request q ∉ history) :
    (picture (desk history)).result = dash ↔ ∀ e, .ok e ∉ evaluations history := by
  rw [picture_result_of_user user, ← lastSuccess_none_iff]
  cases found : (evaluations history).findSome? Except.toOption with
  | none => simp
  | some e => simpa using (written_of_mem (lastSuccess_mem found) _).ne_dash

theorem derivation_empty_iff_of_user (user : ∀ q, .request q ∉ history) :
    (desk history).derivation.tokens = "" ∧ (desk history).derivation.steps = "" ↔
      (picture (desk history)).error.isSome = true ∨ (picture (desk history)).result = dash := by
  have last : (desk history).derivation = derivation history := rfl
  rw [picture_result_eq_dash_iff user, Option.isSome_iff_exists, last, derivation,
    lastOutcome?_of_user user]
  simp only [picture_error_of_user user]
  cases since : evaluations history with
  | nil => simp [Derivation.empty]
  | cons outcome earlier =>
    cases outcome with
    | error failure => simp [outcomeOf, Derivation.empty]
    | ok e =>
      obtain ⟨entry, evaluated⟩ := exists_entry_of_mem (since ▸ List.mem_cons_self)
      have line := e.tokenLine_ne_empty evaluated
      refine iff_of_false (fun empty => line empty.1) ?_
      rintro (⟨message, failure, head, -⟩ | none)
      · cases head
      · exact none e List.mem_cons_self

end Picture

/-- After anything that users do, the labels between those that never change tell what was done.
The message of a failure is there exactly if the last evaluation since everything was set back
failed. The result is the dash exactly if none has succeeded since, and else the last value there
was, with the decimals in force. The derivation is shown exactly after an odd number of presses of
its button, and it is empty exactly beside a message or the dash. -/
theorem labels_tell_history {events : List Event} (user : ∀ q, .request q ∉ events) :
    let since := evaluations events.reverse
    ∃ seen : Screen.Picture,
      (∀ p : Screen.Picture,
        p.labels = Screen.labels (Desk.afterAll (events ++ [.draw])) ↔ p = seen) ∧
      (∀ message, seen.error = some message ↔
        ∃ failure, since.head? = some (.error failure) ∧ failure.message = message) ∧
      (seen.result = Screen.dash ↔ ∀ e, .ok e ∉ since) ∧
      (∀ e, since.findSome? Except.toOption = some e →
        seen.result = RoundedDecimal.text e.value (decimals events.reverse)) ∧
      (seen.panel.isSome = true ↔ Odd (events.count (.press .panel))) ∧
      ∀ d ∈ seen.panel, d.tokens = "" ∧ d.steps = "" ↔
        seen.error.isSome = true ∨ seen.result = Screen.dash := by
  intro since
  have user' : ∀ q, .request q ∉ events.reverse := fun q mem => user q (List.mem_reverse.mp mem)
  have drawn : Screen.labels (Desk.afterAll (events ++ [.draw]))
      = (Screen.picture (desk events.reverse)).labels := by
    rw [Screen.labels_picture, ← afterAll_reverse, List.reverse_reverse, Desk.afterAll,
      List.foldl_append]
    rfl
  refine ⟨Screen.picture (desk events.reverse), fun p => ?_,
    fun message => picture_error_of_user user', picture_result_eq_dash_iff user', fun e found => ?_,
    ?_, ?_⟩
  · rw [drawn]
    exact Screen.Picture.labels_injective.eq_iff
  · rw [picture_result_of_user user', found, Option.elim_some]
  · have opened : (desk events.reverse).panelOpen = panelOpen events.reverse := rfl
    rw [Screen.picture, opened, panelOpen, List.count_reverse, Nat.odd_iff]
    simp
  · intro d shown
    rw [Screen.eq_derivation_of_mem_panel shown]
    exact derivation_empty_iff_of_user user'

/-- An eighth stays in sight with two decimals while a later division fails and the entry is
emptied. -/
theorem labels_tell_history_eighth :
    let events : List Event := [.edit "1/8", .press .equals, .dial 2, .press .panel, .edit "5/0",
      .enter, .press .clearEntry]
    (∀ q, .request q ∉ events) ∧ ∃ seen : Screen.Picture,
      seen.labels = Screen.labels (Desk.afterAll (events ++ [.draw])) ∧
      seen.error = some "division par zéro" ∧ seen.result = "0.12" ∧ seen.result ≠ Screen.dash ∧
      seen.panel.isSome = true ∧ ∀ d ∈ seen.panel, d.tokens = "" ∧ d.steps = "" := by
  intro events
  have user : ∀ q, .request q ∉ events := by simp [events]
  obtain ⟨seen, labels, error, dash, result, panel, derived⟩ := labels_tell_history user
  let eighth : Evaluation :=
    ⟨0.125, [.number 1, .operator .div, .number 8], [.binary .div 1 8 0.125]⟩
  have since : evaluations events.reverse = [.error (.domain .divisionByZero), .ok eighth] := by
    decide +kernel
  rw [since] at error dash result
  have failed : seen.error = some "division par zéro" := (error _).mpr ⟨_, rfl, rfl⟩
  have value : seen.result = RoundedDecimal.text 0.125 2 := result eighth rfl
  refine ⟨user, seen, (labels seen).mpr rfl, failed, ?_, ?_, ?_, fun d shown => ?_⟩
  · rw [value]
    decide +kernel
  · rw [Ne, dash]
    exact fun none => none eighth (by simp)
  · exact panel.mpr (by decide)
  · exact (derived d shown).mpr (.inl (by simp [failed]))

end SessionHistory

end Calculator

import Calculator.Desk
import Calculator.Proofs.EvaluationReplay
import Calculator.Proofs.RoundedTexts

/-!
# What a desk shows belongs together

A value stays on the desk while the entry is changed, while evaluations fail, and while it is
written with other decimals. The derivation stays for as long as it explains that value: whatever
only a user does to the desk, a derivation that is there is one of the value that is there, and the
result is that value written with the decimals in force.
-/
namespace Calculator

theorem Step.lines_eq_intercalate (steps : List Step) :
    Step.lines steps = "\n".intercalate (steps.map Step.text) := by
  have texts : (steps.map Step.text).map String.toList = steps.map Step.chars := by
    rw [List.map_map]
    exact List.map_congr_left fun s _ => String.toList_ofList
  rw [← String.toList_inj, String.toList_intercalate, texts, Step.lines, String.toList_ofList]
  rfl

namespace Desk

/-- What stands on the desk belongs together: the value is a number, the result is its written form,
and a derivation is that of the value, which is the last outcome. -/
structure Coherent (d : Desk) : Prop where
  finite : ∀ v ∈ d.value, v.isFinite = true
  shown : d.shown = match d.value with
    | some v => RoundedDecimal.text v d.decimals
    | none => ""
  derived : d.derivation.tokens ≠ "" → d.error = "" ∧ ∃ e : Evaluation,
    d.value = some e.value ∧ evaluate e.tokenLine = .ok e ∧ d.derivation = e.derivation

variable {d : Desk}

theorem coherent_initial : initial.Coherent := ⟨by simp [initial], rfl, fun h => absurd rfl h⟩

/-- Forgetting or rewriting what has no part in the result keeps all together. -/
theorem Coherent.of_same {d' : Desk} (h : d.Coherent) (value : d'.value = d.value)
    (shown : d'.shown = d.shown) (error : d'.error = d.error)
    (derivation : d'.derivation = d.derivation) (decimals : d'.decimals = d.decimals) :
    d'.Coherent := by
  refine ⟨?_, ?_, ?_⟩
  · rw [value]
    exact h.finite
  · rw [shown, value, decimals]
    exact h.shown
  · rw [derivation, error, value]
    exact h.derived

theorem Coherent.fail (h : d.Coherent) (message : String) : (d.fail message).Coherent :=
  ⟨h.finite, h.shown, fun derived => absurd rfl derived⟩

theorem Coherent.deposit {entry : String} {e : Evaluation} (h : evaluate entry = .ok e) :
    (d.deposit e.value e.derivation).Coherent := by
  obtain ⟨kept, -, read, reduced⟩ := exists_read_of_evaluate h
  have again := evaluate_line (readable_of_reduce read reduced) reduced
  refine ⟨?_, rfl, fun _ => ⟨rfl, e, rfl, again, rfl⟩⟩
  rintro v ⟨rfl⟩
  exact (accounts_of_reduce reduced).value_finite

theorem Coherent.evaluateEntry (h : d.Coherent) : d.evaluateEntry.Coherent := by
  rw [Desk.evaluateEntry]
  cases result : evaluate d.entry with
  | ok e => exact .deposit result
  | error failure => exact h.fail failure.message

theorem Coherent.setDecimals (h : d.Coherent) (decimals : Nat) :
    (d.setDecimals decimals).Coherent := by
  refine ⟨h.finite, ?_, h.derived⟩
  have shown := h.shown
  unfold Desk.setDecimals
  cases value : d.value with
  | some v => rfl
  | none =>
    rw [value] at shown
    exact shown

theorem coherent_clearAll (d : Desk) : d.clearAll.Coherent :=
  ⟨by simp [clearAll, clearResults], rfl, fun derived => absurd rfl derived⟩

theorem Coherent.press (h : d.Coherent) (b : Button) : (d.press b).Coherent := by
  cases b with
  | equals => exact h.evaluateEntry
  | clearEntry => exact h.of_same rfl rfl rfl rfl rfl
  | clearAll => exact coherent_clearAll d
  | panel => exact h.of_same rfl rfl rfl rfl rfl

theorem Coherent.dial (h : d.Coherent) (n : Int) : (d.dial n).Coherent := by
  unfold Desk.dial
  dsimp only
  split
  · exact h
  · exact h.setDecimals _

theorem Coherent.draw (h : d.Coherent) : d.draw.Coherent := h.of_same rfl rfl rfl rfl rfl

/-- Whatever a user does keeps all together. -/
theorem Coherent.after (h : d.Coherent) {e : Event} (user : ∀ q, e ≠ .request q) :
    (d.after e).Coherent := by
  cases e with
  | edit text => exact h.of_same rfl rfl rfl rfl rfl
  | draw => exact h.draw
  | enter => exact h.draw.evaluateEntry
  | press b => exact h.draw.press b
  | dial n => exact h.draw.dial n
  | request q => exact absurd rfl (user q)

theorem Coherent.foldl (h : d.Coherent) {events : List Event} (user : ∀ q, .request q ∉ events) :
    (events.foldl Desk.after d).Coherent := by
  induction events generalizing d with
  | nil => exact h
  | cons e events ih =>
    have first : ∀ q, e ≠ .request q := by
      rintro q rfl
      exact user q List.mem_cons_self
    exact ih (h.after first) fun q mem => user q (List.mem_cons_of_mem e mem)

theorem Coherent.shown_eq (h : d.Coherent) :
    d.shown = "" ∨ RoundedDecimal.Written d.shown.toList := by
  rw [h.shown]
  cases value : d.value with
  | none => exact .inl rfl
  | some v => exact .inr (RoundedDecimal.written_text (h.finite v value) d.decimals)

/-- However a user works, what is on the desk belongs together. The value is finite, and the result
is empty or a decimal, never the text of something that is no number or of negative zero. A
derivation is there only without a failure and beside a value: its tokens are an entry with exactly
that value, that derivation and those steps, and the result is the value written with the decimals
in force, whatever has become of the entry since. -/
theorem coherent_afterAll {events : List Event} (user : ∀ q, .request q ∉ events) :
    let d := afterAll events
    (∀ v ∈ d.value, v.isFinite = true) ∧
      (d.shown = "" ∨ RoundedDecimal.Written d.shown.toList) ∧
      d.shown ∉ ["NaN", "inf", "-inf", "-0"] ∧
      (d.derivation.tokens ≠ "" → d.error = "" ∧ ∃ v, d.value = some v ∧
        d.shown = RoundedDecimal.text v d.decimals ∧
        ∃ e, evaluate d.derivation.tokens = .ok e ∧ e.value = v ∧
          e.tokenLine = d.derivation.tokens ∧
          "\n".intercalate e.stepTexts = d.derivation.steps) := by
  intro d
  have coherent : d.Coherent := coherent_initial.foldl user
  refine ⟨coherent.finite, coherent.shown_eq, ?_, fun tokens => ?_⟩
  · obtain empty | written := coherent.shown_eq
    · rw [empty]
      decide
    · exact written.not_special
  · obtain ⟨error, e, value, again, derivation⟩ := coherent.derived tokens
    have shown := coherent.shown
    rw [value] at shown
    rw [derivation]
    exact ⟨error, e.value, value, shown, e, again, rfl, rfl, (Step.lines_eq_intercalate _).symm⟩

/-- The entry is emptied and the decimals are changed while the value stays. -/
theorem coherent_afterAll_quotient :
    let events : List Event := [.edit "-1/8", .press .equals, .dial 2, .press .clearEntry,
      .press .panel]
    let d := afterAll events
    (∀ q, .request q ∉ events) ∧ d.entry = "" ∧ d.shown = "-0.12" ∧
      d.derivation.tokens = "- 1 / 8" ∧ d.derivation.tokens ≠ "" ∧
      (∀ v ∈ d.value, v.isFinite = true) ∧ d.error = "" ∧ ∃ v, d.value = some v ∧
        d.shown = RoundedDecimal.text v d.decimals ∧
        ∃ e, evaluate d.derivation.tokens = .ok e ∧ e.value = v ∧
          e.tokenLine = d.derivation.tokens ∧
          "\n".intercalate e.stepTexts = d.derivation.steps := by
  intro events d
  have user : ∀ q, .request q ∉ events := by simp [events]
  have tokens : d.derivation.tokens = "- 1 / 8" := by decide +kernel
  have derived : d.derivation.tokens ≠ "" := by
    rw [tokens]
    decide
  obtain ⟨finite, -, -, explained⟩ := coherent_afterAll user
  exact ⟨user, by decide +kernel, by decide +kernel, tokens, derived, finite, explained derived⟩

end Desk

end Calculator

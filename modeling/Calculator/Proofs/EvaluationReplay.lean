import Calculator.Proofs.TokenBoundaries
import Calculator.Proofs.TraceConservation

/-! # Replaying an evaluation

The tokens shown for an evaluation are an entry of their own. Every number that is taken as an
operand is finite, so the line of tokens is read as these tokens again. They have a value, so the
blanks between them may be taken away, and the entry gives the same steps.
-/
namespace Calculator

theorem isFinite_of_reduce {ts : List Token} {result : Reduction} (h : reduce ts = .ok result)
    {x : Float} (mem : .number x ∈ ts) : x.isFinite = true :=
  (accounts_of_reduce h).numbers_finite x (List.mem_filterMap.mpr ⟨.number x, mem, rfl⟩)

theorem readable_of_reduce {s : List Char} {ts : List Token} {result : Reduction}
    (read : Token.ofChars s = .ok ts) (reduced : reduce ts = .ok result) : ∀ t ∈ ts, t.Readable :=
  Token.readable_of_ofChars read fun _ mem => isFinite_of_reduce reduced mem

/-- A line of tokens that have a value is an entry with that value, read as these tokens. -/
theorem evaluate_line {ts : List Token} {result : Reduction} (readable : ∀ t ∈ ts, t.Readable)
    (reduced : reduce ts = .ok result) :
    evaluate (Token.line ts) = .ok ⟨result.value, ts, result.steps⟩ := by
  apply evaluate_of_ofChars _ reduced
  rw [Token.line, String.toList_ofList]
  exact Token.ofChars_lineChars readable

/-- Evaluating the tokens shown for an evaluation gives the evaluation again: the same value, the
same tokens and the same steps. -/
theorem evaluate_tokenLine {entry : String} {e : Evaluation} (h : evaluate entry = .ok e) :
    evaluate e.tokenLine = .ok e := by
  obtain ⟨kept, -, read, reduced⟩ := exists_read_of_evaluate h
  exact evaluate_line (readable_of_reduce read reduced) reduced

theorem evaluate_tokenLine_product :
    ∃ e, evaluate " 1.50*(2 -.5) " = .ok e ∧ e.tokenLine = "1.5 * ( 2 - 0.5 )" ∧ e.value = 2.25 ∧
      evaluate e.tokenLine = .ok e := by
  refine ⟨⟨2.25, [.number 1.5, .operator .mul, .leftParen, .number 2, .operator .sub, .number 0.5,
    .rightParen], [.binary .sub 2 0.5 1.5, .binary .mul 1.5 1.5 2.25]⟩,
    ?read, ?line, rfl, evaluate_tokenLine ?read⟩
  · decide +kernel
  · decide +kernel

end Calculator

import Calculator.ExpressionTree
import Calculator.Screen
import Calculator.SessionHistory
import Calculator.StructuralFault
import Calculator.Proofs.ReductionRuns
import Calculator.Proofs.TreeReduction
import Calculator.Proofs.StackBalance
import Calculator.Proofs.StructuralClassification
import Calculator.Proofs.PhraseReconstruction
import Calculator.Proofs.FloatWords
import Calculator.Proofs.NearestRounding
import Calculator.Proofs.DecimalText
import Calculator.Proofs.LexemeBoundaries
import Calculator.Proofs.TokenText
import Calculator.Proofs.TokenLines
import Calculator.Proofs.EvaluationReplay
import Calculator.Proofs.WholeAngles
import Calculator.Proofs.TrigonometricPoles
import Calculator.Proofs.DeskHistory
import Calculator.Proofs.NearestDistance
import Calculator.Proofs.RoundedTexts
import Calculator.Proofs.TraceConservation
import Calculator.Proofs.CompoundEntries
import Calculator.Proofs.GroupedReduction
import Calculator.Proofs.GroupReplacement
import Calculator.Proofs.DeskCoherence
import Calculator.Proofs.LongestLexemes
import Calculator.Proofs.TokenBoundaries
import Calculator.Proofs.RefusedCharacters
import Calculator.Proofs.CanonicalDecimals
import Calculator.Proofs.TrigonometricIdentities
import Calculator.Proofs.ScreenHistory
import Calculator.Proofs.StackOrder
import Calculator.Proofs.Performances
import Calculator.Proofs.StepLines

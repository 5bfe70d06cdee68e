import Mathlib.Analysis.SpecialFunctions.Log.Base
import Mathlib.Analysis.SpecialFunctions.Pow.Real
import Mathlib.Analysis.SpecialFunctions.Trigonometric.Arctan
import Mathlib.Analysis.SpecialFunctions.Trigonometric.Inverse
import FormulaNet.Proofs.Reading

/-!
# Real numbers

The reading of formulas that programs approximate: real powers, the root that is not negative, logarithms and
trigonometric functions with the principal values of their inverses, each where it is defined.
-/

namespace FormulaNet

namespace Function

/-- Where a function of real numbers is defined. -/
def Defined : Function → ℝ → Prop
  | sqrt, x => 0 ≤ x
  | tan, x => Real.cos x ≠ 0
  | asin, x => -1 ≤ x ∧ x ≤ 1
  | acos, x => -1 ≤ x ∧ x ≤ 1
  | ln, x => 0 < x
  | log10, x => 0 < x
  | _, _ => True

noncomputable def real : Function → ℝ → ℝ
  | sqrt => Real.sqrt
  | sin => Real.sin
  | cos => Real.cos
  | tan => Real.tan
  | asin => Real.arcsin
  | acos => Real.arccos
  | atan => Real.arctan
  | ln => Real.log
  | log10 => Real.logb 10
  | exp => Real.exp
  | abs => fun x ↦ |x|

end Function

/-- A positive number has every power, zero those with an exponent that is not negative, and a negative number
those with a whole exponent. -/
def Reading.PowerDefined (x y : ℝ) : Prop := 0 < x ∨ x = 0 ∧ 0 ≤ y ∨ x < 0 ∧ ∃ n : ℤ, y = n

namespace Reading

open Classical in
/-- Real numbers. -/
noncomputable def real : Reading ℝ where
  power? x y := if PowerDefined x y then some (x ^ y) else none
  call? f x := if f.Defined x then some (f.real x) else none
  pi := Real.pi
  power?_one x := by
    have hdefined : PowerDefined x 1 := by
      rcases lt_trichotomy x 0 with hx | hx | hx
      · exact .inr (.inr ⟨hx, 1, by norm_num⟩)
      · exact .inr (.inl ⟨hx, zero_le_one⟩)
      · exact .inl hx
    rw [if_pos hdefined, Real.rpow_one]

variable {f : Function} {x y z : ℝ}

theorem real_power?_eq_some_iff : real.power? x y = some z ↔ PowerDefined x y ∧ x ^ y = z :=
  Option.ite_none_right_eq_some.trans (and_congr_right fun _ ↦ by rw [Option.some.injEq])

theorem real_call?_eq_some_iff : real.call? f x = some z ↔ f.Defined x ∧ f.real x = z :=
  Option.ite_none_right_eq_some.trans (and_congr_right fun _ ↦ by rw [Option.some.injEq])

end Reading

end FormulaNet

import Mathlib.Algebra.Order.Field.Rat
import Mathlib.Tactic.Common
import FormulaNet.Scalar

/-!
# Exact scalars

Doubles round.  What a formula means is stated over scalars that do not: `Scalar.Exact` are the fields whose
scalar operations are those of the field, so that literals denote what they write, numeric equality is
equality, and nothing overflows.  The rationals are the standard example.
-/

namespace FormulaNet.Scalar

/-- The characters of numerals. -/
def isNumeralChar (c : Char) : Bool := c.isDigit || c = '-' || c = '.' || c = '/'

/-- Scalars without rounding.  What powers, functions and `pi` are is left open, but that a first power is
its base. -/
class Exact (ν : Type) extends Scalar ν, Field ν where
  same_iff : ∀ x y : ν, same x y = true ↔ x = y
  decimal_eq : ∀ (digits : Nat) (exponent : Int), decimal digits exponent = (digits : ν) * 10 ^ exponent
  isFinite_eq : ∀ x : ν, isFinite x = true
  power_one : ∀ x : ν, pow x 1 = x
  /-- A numeral has some digit. -/
  text_digit : ∀ x : ν, ∃ c ∈ (text x).toList, c.isDigit = true
  text_chars : ∀ x : ν, ∀ c ∈ (text x).toList, isNumeralChar c = true

section

variable {ν : Type} [Exact ν]

theorem ofNat_eq (n : Nat) : (ofNat n : ν) = n := by
  rw [ofNat, Exact.decimal_eq, zpow_zero, mul_one]

@[simp] theorem ofNat_zero : (ofNat 0 : ν) = 0 := by rw [ofNat_eq, Nat.cast_zero]

@[simp] theorem ofNat_one : (ofNat 1 : ν) = 1 := by rw [ofNat_eq, Nat.cast_one]

end

/-! ## Rationals -/

namespace Rational

/-- A fraction in lowest terms. -/
def text (x : ℚ) : String :=
  (if x.num < 0 then "-" else "") ++ x.num.natAbs.repr ++ "/" ++ x.den.repr

theorem mem_repr {n : Nat} {c : Char} (h : c ∈ n.repr.toList) : c.isDigit = true := by
  rw [Nat.toList_repr] at h
  exact Nat.isDigit_of_mem_toDigits (by decide) (by decide) h

end Rational

/-- Rational arithmetic is exact.  Of the functions only the absolute value is rational, and of the powers
those with an integer exponent; the others are not meant to be computed here. -/
instance : Exact ℚ where
  __ := (inferInstance : Field ℚ)
  pow x y := x ^ y.num
  apply _ x := |x|
  pi := 3141592653589793 / 10 ^ 15
  decimal digits exponent := digits * 10 ^ exponent
  infinity? := none
  undefined? := none
  same x y := decide (x = y)
  isNegative x := decide (x < 0)
  isFinite _ := true
  isUndefined _ := false
  text := Rational.text
  same_iff _ _ := decide_eq_true_iff
  decimal_eq _ _ := rfl
  isFinite_eq _ := rfl
  power_one x := zpow_one x
  text_digit x := by
    obtain ⟨c, hc⟩ := List.exists_mem_of_ne_nil _ (Nat.toDigits_ne_nil (n := x.den) (b := 10))
    rw [← Nat.toList_repr] at hc
    refine ⟨c, ?_, Rational.mem_repr hc⟩
    rw [Rational.text, String.toList_append]
    exact List.mem_append_right _ hc
  text_chars x c hc := by
    simp only [Rational.text, String.toList_append, List.mem_append] at hc
    rcases hc with ((hc | hc) | hc) | hc
    · split at hc
      · simp [isNumeralChar, show c = '-' by simpa using hc]
      · simp at hc
    · simp [isNumeralChar, Rational.mem_repr hc]
    · simp [isNumeralChar, show c = '/' by simpa using hc]
    · simp [isNumeralChar, Rational.mem_repr hc]

end FormulaNet.Scalar

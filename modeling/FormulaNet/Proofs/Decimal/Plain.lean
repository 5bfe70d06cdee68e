import FormulaNet.Proofs.Decimal.Literal

/-!
# Numbers written in full

Digits, and perhaps a point and more digits: such a text is read as a decimal, and with a sign in front as
its negation.
-/

namespace FormulaNet

namespace Numeral

variable {cs ds : List Char}

/-- How a number without a sign is written in full. -/
inductive IsPlain : List Char → Prop
  | whole {ds : List Char} : isDigits ds = true → IsPlain ds
  | fraction {ds fs : List Char} : isDigits ds = true → isDigits fs = true → IsPlain (ds ++ '.' :: fs)

theorem IsPlain.startsLiteral (h : IsPlain cs) : StartsLiteral cs := by
  cases h with
  | whole h => exact startsLiteral_of_isDigits h
  | fraction h _ =>
      obtain ⟨c, ds, rfl, hc, -⟩ := isDigits_iff.mp h
      exact ⟨c, rfl, .inl hc⟩

theorem IsPlain.isDecimal (h : IsPlain cs) : IsDecimal cs := by
  cases h with
  | whole h => exact .mantissa (.whole h)
  | @fraction ds fs h h' =>
      rw [isDigits, Bool.and_eq_true] at h h'
      have hne : ds ≠ [] := by simpa using h.1
      exact .mantissa (.point h.2 h'.2 (by simp [hne]))

/-- A number written in full is a decimal, and a minus before it is its sign. -/
theorem exists_read?_of_isPlain (h : IsPlain cs) : ∃ digits exponent,
    read? cs = some (.decimal false digits exponent) ∧
      read? ('-' :: cs) = some (.decimal true digits exponent) := by
  obtain ⟨digits, exponent, hunsigned⟩ := exists_readUnsigned? h.isDecimal
  refine ⟨digits, exponent, ?_, ?_⟩
  · rw [read?_of_startsLiteral h.startsLiteral, hunsigned]
  · rw [read?, takeSign]
    simp only [hunsigned, Option.some_or]

end Numeral

namespace Scalar

/-- What a number written in full denotes with a minus in front is the negation of what it denotes. -/
theorem exists_read?_of_isPlain {ν : Type} [Scalar ν] {cs : List Char} (h : Numeral.IsPlain cs) : ∃ x : ν,
    read? (String.ofList cs) = some x ∧ read? (String.ofList ('-' :: cs)) = some (-x) := by
  obtain ⟨digits, exponent, hplus, hminus⟩ := Numeral.exists_read?_of_isPlain h
  refine ⟨decimal digits exponent, ?_, ?_⟩
  · rw [read?, String.toList_ofList, hplus]
    rfl
  · rw [read?, String.toList_ofList, hminus]
    rfl

end Scalar

end FormulaNet

import FormulaNet.Decimal.Shortest

/-!
# The shortest decimal is not zero

The interval of a positive double begins above zero, so no point of a grid that lies in it is zero.
-/

namespace FormulaNet.Decimal

variable {tie : Tie} {i : Interval} {mantissa unit point : Nat} {exponent power : Int} {d : Decimal}

theorem Interval.pos_of_contains (hlow : 0 < i.low) (hunit : 0 < unit) (h : i.contains unit point = true) :
    0 < point := by
  have hpos : 0 < i.low * unit := Nat.mul_pos hlow hunit
  unfold contains at h
  split at h
  · rw [Bool.and_eq_true, decide_eq_true_iff, decide_eq_true_iff] at h
    exact Nat.lt_of_lt_of_le hpos h.1
  · rw [Bool.and_eq_true, decide_eq_true_iff, decide_eq_true_iff] at h
    exact Nat.lt_trans hpos h.1

theorem low_interval_pos (h : 0 < mantissa) : 0 < (interval mantissa exponent).low := by
  simp only [interval]
  split <;> omega

theorem digits_pos_of_onGrid? (hlow : 0 < i.low) (h : onGrid? tie i exponent power = some d) : 0 < d.digits := by
  have hunit : 0 < twoTo (exponent - 2) * tenTo (-power) := Nat.mul_pos (twoTo_pos _) (tenTo_pos _)
  unfold onGrid? at h
  dsimp only at h
  split at h
  · next hbelow _ =>
    obtain rfl := Option.some.inj h
    have hpos := Nat.pos_of_mul_pos_right (Interval.pos_of_contains hlow hunit hbelow)
    dsimp only
    split
    · exact Nat.succ_pos _
    · exact hpos
  · next hbelow _ =>
    obtain rfl := Option.some.inj h
    exact Nat.pos_of_mul_pos_right (Interval.pos_of_contains hlow hunit hbelow)
  · obtain rfl := Option.some.inj h
    exact Nat.succ_pos _
  · cases h

/-- Its digits are more than zero, or no grid has had a point. -/
theorem digits_firstGrid (hlow : 0 < i.low) (n : Nat) : 0 < (firstGrid tie i exponent power n).digits ∨
    firstGrid tie i exponent power n = ⟨0, 0⟩ := by
  induction n generalizing power with
  | zero => exact .inr rfl
  | succ n ih =>
      unfold firstGrid
      cases hgrid : onGrid? tie i exponent power with
      | none => exact ih
      | some d => exact .inl (digits_pos_of_onGrid? hlow hgrid)

theorem exponent_shortest (hm : 0 < mantissa) (h : (shortest tie mantissa exponent).digits = 0) :
    (shortest tie mantissa exponent).exponent = 0 := by
  rcases digits_firstGrid (low_interval_pos hm) 18 with hpos | heq
  · exact absurd h (Nat.ne_of_gt hpos)
  · rw [shortest, heq]

end FormulaNet.Decimal

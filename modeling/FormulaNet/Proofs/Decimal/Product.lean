import FormulaNet.Proofs.Decimal.Rounding

/-!
# Products and quotients of doubles

They too are next to the exact ones.  A quotient is cut off where it has digits enough, and whether something
was cut off is kept for the rounding.  A decimal fraction is read as such a quotient.
-/

namespace FormulaNet.Binary64

open Float.Model (Format UnpackedFloat totalExponent)
open Float.Model.UnpackedFloat

/-! ## Products -/

section Products

variable {a b : UnpackedFloat}

theorem withSign_mul (s s' : Sign) (q r : ℚ) : withSign (s * s') (q * r) = withSign s q * withSign s' r := by
  cases s <;> cases s'
  · exact (neg_mul_neg q r).symm
  · exact (neg_mul q r).symm
  · exact (mul_neg q r).symm
  · rfl

theorem abs_withSign (s : Sign) {r : ℚ} (hr : 0 ≤ r) : |withSign s r| = r := by
  cases s
  · exact (abs_neg r).trans (abs_of_nonneg hr)
  · exact abs_of_nonneg hr

theorem isRounded_mul (ha : Canonical a) (hb : Canonical b) (hfa : a.isFinite = true)
    (hfb : b.isFinite = true) (h : |numeric a * numeric b| < 2 ^ 1000) :
    IsRounded (UnpackedFloat.mul .binary64 a b) (numeric a * numeric b) := by
  cases a with
  | infinity => cases hfa
  | notANumber => cases hfa
  | zero s =>
      have hzero : numeric (.zero s) * numeric b = 0 := zero_mul _
      rw [hzero]
      cases b with
      | infinity => cases hfb
      | notANumber => cases hfb
      | zero => exact ⟨trivial, rfl, .refl 0⟩
      | finite => exact ⟨trivial, rfl, .refl 0⟩
  | finite s m e hm =>
      cases b with
      | infinity => cases hfb
      | notANumber => cases hfb
      | zero s' => exact ⟨trivial, rfl, by rw [show numeric (.zero s') = 0 from rfl, mul_zero]; exact .refl 0⟩
      | finite s' m' e' hm' =>
          have hvalue : ((m * m' : ℕ) : ℚ) * 2 ^ (e + e') = m * 2 ^ e * (m' * 2 ^ e') := by
            rw [zpow_add₀ two_ne_zero]
            push_cast
            ring
          have hpos : m * m' ≠ 0 := (Nat.mul_pos hm hm').ne'
          rw [numeric_finite, numeric_finite, ← withSign_mul, ← hvalue] at h ⊢
          rw [abs_withSign _ (by positivity)] at h
          have hlog : 2 ^ 52 ≤ m * m' → 52 ≤ (m * m').log2 := (Nat.le_log2 hpos).mpr
          refine isRounded_roundWithAccuracy (s * s') hpos ?_ (log2_add_le hpos h) rfl
          rcases ha.2.1 with hfull | hleast
          · have hbits := hlog (hfull.trans (Nat.le_mul_of_pos_right m hm'))
            omega
          · rcases hb.2.1 with hfull | hleast'
            · have hbits := hlog (hfull.trans (Nat.le_mul_of_pos_left m' hm))
              omega
            · omega

end Products

/-! ## Quotients -/

section Quotients

variable {m m' : ℕ} {e e' : ℤ}

theorem approximates_accuracyOfFraction (n : ℕ) {d : ℕ} (hd : 0 < d) (t : ℤ) :
    Approximates (n / d) t (accuracyOfFraction (n % d) d) (n / d * 2 ^ t) := by
  have hd' : (0 : ℚ) < d := by exact_mod_cast hd
  have hpos : (0 : ℚ) < 2 ^ t := by positivity
  unfold accuracyOfFraction
  split
  · next hexact =>
    rw [Approximates, Nat.cast_div (Nat.dvd_of_mod_eq_zero hexact) hd'.ne']
  · next hinexact =>
    have hmod := Nat.div_add_mod' n d
    have hlow : n / d * d < n := by omega
    have hhigh : n < (n / d + 1) * d := by
      rw [mul_comm]
      exact Nat.lt_mul_div_succ n hd
    have hlow' : ((n / d : ℕ) : ℚ) < n / d := by
      rw [lt_div_iff₀ hd']
      exact_mod_cast hlow
    have hhigh' : (n / d : ℚ) < (n / d : ℕ) + 1 := by
      rw [div_lt_iff₀ hd']
      exact_mod_cast hhigh
    exact ⟨by gcongr, by gcongr⟩

/-- The exponent at which a quotient has digits enough, if it is no less than the least. -/
theorem targetExponent_sub (m : ℕ) (e : ℤ) (m' : ℕ) (e' : ℤ) :
    Format.binary64.targetExponent (totalExponent m e - totalExponent m' e') =
      max (m.log2 - m'.log2 - 1 + (e - e') - 52) (-1074) := by
  simp only [Format.targetExponent, totalExponent, Format.mantissaBits, Format.minExponent]
  omega

theorem zpow_log2_sub_le (e e' : ℤ) (hm : m ≠ 0) (hm' : m' ≠ 0) :
    (2 : ℚ) ^ ((m.log2 : ℤ) - m'.log2 - 1 + (e - e')) ≤ m * 2 ^ e / (m' * 2 ^ e') := by
  have hpos : (0 : ℚ) < m' := by exact_mod_cast Nat.pos_of_ne_zero hm'
  have hlow : (2 : ℚ) ^ m.log2 ≤ m := by exact_mod_cast Nat.log2_self_le hm
  have hhigh : (m' : ℚ) ≤ 2 ^ (m'.log2 + 1) := by exact_mod_cast Nat.lt_log2_self.le
  calc
    (2 : ℚ) ^ ((m.log2 : ℤ) - m'.log2 - 1 + (e - e')) = 2 ^ m.log2 * 2 ^ e / (2 ^ (m'.log2 + 1) * 2 ^ e') := by
      rw [← zpow_natCast, ← zpow_natCast, ← zpow_add₀ two_ne_zero, ← zpow_add₀ two_ne_zero,
        ← zpow_sub₀ two_ne_zero]
      congr 1
      push_cast
      ring
    _ ≤ m * 2 ^ e / (m' * 2 ^ e') := by gcongr

variable {a b : UnpackedFloat}

/-- A quotient that does not underflow. -/
theorem isRounded_div (ha : a.isFinite = true) (hb : b.isFinite = true)
    (hlow : 2 ^ (-1000 : ℤ) ≤ |numeric a / numeric b|) (hhigh : |numeric a / numeric b| < 2 ^ 1000) :
    IsRounded (UnpackedFloat.div .binary64 a b) (numeric a / numeric b) := by
  have hnonzero : numeric a / numeric b ≠ 0 := by
    intro hzero
    rw [hzero, abs_zero] at hlow
    exact absurd hlow (by positivity : (0 : ℚ) < 2 ^ (-1000 : ℤ)).not_ge
  obtain ⟨hna, hnb⟩ := div_ne_zero_iff.mp hnonzero
  cases a with
  | infinity => cases ha
  | notANumber => cases ha
  | zero => exact absurd rfl hna
  | finite s m e hm =>
      cases b with
      | infinity => cases hb
      | notANumber => cases hb
      | zero => exact absurd rfl hnb
      | finite s' m' e' hm' =>
          have hsign : numeric (.finite s m e hm) / numeric (.finite s' m' e' hm') =
              withSign (s / s') (m * 2 ^ e / (m' * 2 ^ e')) := by
            rw [numeric_finite, numeric_finite]
            cases s <;> cases s'
            · exact neg_div_neg_eq _ _
            · exact neg_div _ _
            · exact div_neg _
            · rfl
          rw [hsign, abs_withSign _ (by positivity)] at hlow hhigh
          rw [hsign]
          have hbelow := zpow_log2_sub_le e e' hm.ne' hm'.ne'
          unfold UnpackedFloat.div divCore
          dsimp only
          rw [targetExponent_sub, Nat.shiftLeft_eq]
          generalize ht : min (e - e') (max (m.log2 - m'.log2 - 1 + (e - e') - 52) (-1074)) = t
          generalize hk : (e - e' - t).toNat = k
          have hquotient : ((m * 2 ^ k : ℕ) : ℚ) / m' * 2 ^ t = m * 2 ^ e / (m' * 2 ^ e') := by
            obtain rfl : e = t + k + e' := by omega
            rw [zpow_add₀ two_ne_zero, zpow_add₀ two_ne_zero, zpow_natCast]
            push_cast
            field_simp
          have happrox := approximates_accuracyOfFraction (m * 2 ^ k) hm' t
          rw [hquotient] at happrox
          have hceil := happrox.bounds.2
          generalize m * 2 ^ k / m' = q at happrox hceil ⊢
          have hdigits : -1074 < t → 2 ^ 52 ≤ q := fun hleast ↦ by
            have hlt : (2 : ℚ) ^ 52 * 2 ^ t < (q + 1) * 2 ^ t :=
              calc
                (2 : ℚ) ^ 52 * 2 ^ t = 2 ^ (52 + t) := by rw [zpow_add₀ two_ne_zero]; rfl
                _ ≤ 2 ^ ((m.log2 : ℤ) - m'.log2 - 1 + (e - e')) :=
                  zpow_le_zpow_right₀ one_le_two (by omega)
                _ < (q + 1) * 2 ^ t := hbelow.trans_lt hceil
            have hlt' : (2 : ℚ) ^ 52 < q + 1 := lt_of_mul_lt_mul_right hlt (by positivity)
            exact Nat.le_of_lt_succ (by exact_mod_cast hlt')
          have hq : q ≠ 0 := by
            rintro rfl
            have hleast : t ≤ -1074 := not_lt.mp fun hlt ↦ absurd (hdigits hlt) (by decide)
            have hsmall : (2 : ℚ) ^ t < 2 ^ (-1000 : ℤ) := zpow_lt_zpow_right₀ one_lt_two (by omega)
            rw [Nat.cast_zero, zero_add, one_mul] at hceil
            exact absurd (hlow.trans_lt (hceil.trans hsmall)) (lt_irrefl _)
          refine isRounded_roundWithAccuracy (s / s') hq ?_
            (log2_add_le hq (happrox.bounds.1.trans_lt hhigh)) happrox
          by_cases hleast : -1074 < t
          · have hbits := (Nat.le_log2 hq).mpr (hdigits hleast)
            omega
          · omega

variable {x y : Float}

/-- **The product of finite doubles is the exact product, rounded.** -/
theorem isFinite_and_rounds_mul (hx : x.isFinite = true) (hy : y.isFinite = true)
    (h : |(ofFloat x).value * (ofFloat y).value| < 2 ^ 1000) :
    (x * y).isFinite = true ∧ Rounds ((ofFloat x).value * (ofFloat y).value) (ofFloat (x * y)).value := by
  refine isFinite_and_rounds (u := .mul .binary64 (unpacked x) (unpacked y)) ?_ rfl
  rw [value_ofFloat, value_ofFloat] at h ⊢
  exact isRounded_mul (canonical_unpacked x) (canonical_unpacked y) hx hy h

/-- **The quotient of finite doubles is the exact quotient, rounded.** -/
theorem isFinite_and_rounds_div (hx : x.isFinite = true) (hy : y.isFinite = true)
    (hlow : 2 ^ (-1000 : ℤ) ≤ |(ofFloat x).value / (ofFloat y).value|)
    (hhigh : |(ofFloat x).value / (ofFloat y).value| < 2 ^ 1000) :
    (x / y).isFinite = true ∧ Rounds ((ofFloat x).value / (ofFloat y).value) (ofFloat (x / y)).value := by
  refine isFinite_and_rounds (u := .div .binary64 (unpacked x) (unpacked y)) ?_ rfl
  rw [value_ofFloat, value_ofFloat] at hlow hhigh ⊢
  exact isRounded_div hx hy hlow hhigh

end Quotients

/-! ## Decimal fractions -/

section Fractions

open Float (exactlyRepresentablePowersOfTen)

/-- Numbers below `2 ^ 53` are doubles. -/
theorem isFinite_and_value_toFloat {n : ℕ} (hn : n < 2 ^ 53) :
    n.toUInt64.toFloat.isFinite = true ∧ (ofFloat n.toUInt64.toFloat).value = n := by
  have hword : n.toUInt64.toNat = n := by
    rw [Nat.toUInt64, UInt64.toNat_ofNat']
    omega
  have hlt : |((n : ℤ) : ℚ) * 2 ^ (0 : ℤ)| < 2 ^ 1000 := by
    have htop : (n : ℚ) < 2 ^ 53 := by exact_mod_cast hn
    rw [zpow_zero, mul_one, Int.cast_natCast, Nat.abs_cast]
    exact htop.trans_le (pow_le_pow_right₀ one_le_two (by decide))
  have hround := isRounded_normalize (s := .positive) hlt
  rw [zpow_zero, mul_one, Int.cast_natCast] at hround
  have hfloat : n.toUInt64.toFloat = .ofModel (.pack (.ofUInt64 .binary64 n.toUInt64)) := rfl
  rw [UnpackedFloat.ofUInt64, hword] at hfloat
  obtain ⟨hfinite, hrounds⟩ := isFinite_and_rounds hround hfloat
  refine ⟨hfinite, hrounds.eq_of_fits ?_⟩
  have hfits : Fits ((n : ℤ) : ℚ) := fits_intCast (by rw [Nat.abs_cast]; exact_mod_cast hn)
  exact_mod_cast hfits

theorem powersOfTen_spec : ∀ k : Fin exactlyRepresentablePowersOfTen.size,
    exactlyRepresentablePowersOfTen[k].isFinite = true ∧
      (ofFloat exactlyRepresentablePowersOfTen[k]).value = 10 ^ (k : ℕ) := by
  decide +kernel

/-- **A decimal fraction of at most 22 places is read as the double next to it.** -/
theorem isFinite_and_rounds_ofDecimal {n k : ℕ} (hpos : 0 < n) (hn : n < 2 ^ 53) (hplaces : 0 < k) (hk : k ≤ 22) :
    (ofDecimal n (-k)).isFinite = true ∧ Rounds (n / 10 ^ k) (ofFloat (ofDecimal n (-k))).value := by
  have hlength : (Nat.toDigits 10 n).length ≤ 16 :=
    (Nat.length_toDigits_le_iff (by decide) (by decide)).mpr (hn.trans_le (by norm_num))
  have hsize : k < exactlyRepresentablePowersOfTen.size := Nat.lt_succ_of_le hk
  have hdecimal : ofDecimal n (-k) = n.toUInt64.toFloat / exactlyRepresentablePowersOfTen[k] := by
    unfold ofDecimal
    dsimp only
    rw [if_neg (by omega), if_neg (by omega), Float.ofScientific, dif_pos (by omega), if_pos (by simpa using hplaces)]
    simp only [Int.natAbs_neg, Int.natAbs_natCast]
  obtain ⟨hfinite, hvalue⟩ := isFinite_and_value_toFloat hn
  obtain ⟨hfinite', hvalue'⟩ := powersOfTen_spec ⟨k, hsize⟩
  have hpower : (ofFloat exactlyRepresentablePowersOfTen[k]).value = 10 ^ k := hvalue'
  have hone : (1 : ℚ) ≤ n := by exact_mod_cast hpos
  have htop : (n : ℚ) < 2 ^ 53 := by exact_mod_cast hn
  have hten : (10 : ℚ) ^ k ≤ 10 ^ 22 := pow_le_pow_right₀ (by norm_num) hk
  have hten' : (1 : ℚ) ≤ 10 ^ k := one_le_pow₀ (by norm_num)
  have habs : |(n : ℚ) / 10 ^ k| = n / 10 ^ k := abs_of_nonneg (by positivity)
  rw [hdecimal, ← hpower, ← hvalue]
  refine isFinite_and_rounds_div hfinite hfinite' ?_ ?_
  · rw [hvalue, hpower, habs, le_div_iff₀ (by positivity)]
    calc
      (2 : ℚ) ^ (-1000 : ℤ) * 10 ^ k ≤ 2 ^ (-1000 : ℤ) * 10 ^ 22 := by gcongr
      _ ≤ 2 ^ (-1000 : ℤ) * 2 ^ (74 : ℤ) := by gcongr; norm_num
      _ = 2 ^ (-926 : ℤ) := (zpow_add₀ two_ne_zero _ _).symm
      _ ≤ 1 := zpow_le_one_of_nonpos₀ one_le_two (by decide)
      _ ≤ n := hone
  · rw [hvalue, hpower, habs, div_lt_iff₀ (by positivity)]
    calc
      (n : ℚ) < 2 ^ 53 := htop
      _ ≤ 2 ^ 1000 * 1 := by rw [mul_one]; exact pow_le_pow_right₀ one_le_two (by decide)
      _ ≤ 2 ^ 1000 * 10 ^ k := by gcongr

end Fractions

end FormulaNet.Binary64

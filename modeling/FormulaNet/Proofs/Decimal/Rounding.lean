import FormulaNet.Proofs.Decimal.Order

/-!
# Sums of doubles

A sum or a difference of doubles is next to the exact one: no number that a double can be lies between the
two.  So it is exact where the exact one is such a number, and it never crosses one.
-/

namespace FormulaNet.Binary64

open Float.Model (Format UnpackedFloat totalExponent)
open Float.Model.UnpackedFloat

/-! ## Rounded numbers -/

/-- A whole number of at most 53 binary digits, times a power of two. -/
def Fits (r : ℚ) : Prop := ∃ n e : ℤ, |n| < 2 ^ 53 ∧ -1074 ≤ e ∧ r = n * 2 ^ e

/-- No number that fits lies strictly between `r` and `v`. -/
def Rounds (r v : ℚ) : Prop := ∀ c, Fits c → (c ≤ r → c ≤ v) ∧ (r ≤ c → v ≤ c)

theorem Fits.neg {r : ℚ} (h : Fits r) : Fits (-r) := by
  obtain ⟨n, e, hn, he, rfl⟩ := h
  exact ⟨-n, e, by rwa [abs_neg], he, by push_cast; ring⟩

theorem fits_intCast {n : ℤ} (h : |n| < 2 ^ 53) : Fits n := ⟨n, 0, h, by decide, by simp⟩

/-- A sum that is no larger than either of its terms is a multiple of the lesser unit, with no more digits. -/
theorem Fits.add {q r : ℚ} (hq : Fits q) (hr : Fits r) (hle : |q + r| ≤ |q|) (hle' : |q + r| ≤ |r|) :
    Fits (q + r) := by
  wlog hwlog : ∃ n m e f : ℤ, |n| < 2 ^ 53 ∧ -1074 ≤ e ∧ e ≤ f ∧ q = n * 2 ^ e ∧ r = m * 2 ^ f generalizing q r
  · obtain ⟨n, e, hn, he, hqe⟩ := hq
    obtain ⟨m, f, hm, hf, hrf⟩ := hr
    have hlt : f < e := by
      by_contra hge
      exact hwlog ⟨n, m, e, f, hn, he, not_lt.mp hge, hqe, hrf⟩
    rw [add_comm] at hle hle' ⊢
    exact this ⟨m, f, hm, hf, hrf⟩ ⟨n, e, hn, he, hqe⟩ hle' hle ⟨m, n, f, e, hm, hf, hlt.le, hrf, hqe⟩
  obtain ⟨n, m, e, f, hn, he, hef, rfl, rfl⟩ := hwlog
  obtain ⟨k, rfl⟩ : ∃ k : ℕ, f = e + k := ⟨(f - e).toNat, by omega⟩
  have hpos : (0 : ℚ) < 2 ^ e := by positivity
  have hsum : (n : ℚ) * 2 ^ e + m * 2 ^ (e + k : ℤ) = ((n + m * 2 ^ k : ℤ) : ℚ) * 2 ^ e := by
    rw [zpow_add₀ two_ne_zero, zpow_natCast]
    push_cast
    ring
  rw [hsum, abs_mul, abs_mul, mul_le_mul_iff_of_pos_right (abs_pos.mpr hpos.ne')] at hle
  refine ⟨n + m * 2 ^ k, e, lt_of_le_of_lt ?_ hn, he, hsum⟩
  exact_mod_cast hle

namespace Rounds

variable {r v : ℚ}

theorem refl (r : ℚ) : Rounds r r := fun _ _ ↦ ⟨id, id⟩

/-- Bounds that fit are bounds of what is rounded. -/
theorem bounds (h : Rounds r v) {c d : ℚ} (hc : Fits c) (hd : Fits d) (hr : c ≤ r ∧ r ≤ d) : c ≤ v ∧ v ≤ d :=
  ⟨(h c hc).1 hr.1, (h d hd).2 hr.2⟩

/-- What fits is not rounded. -/
theorem eq_of_fits (h : Rounds r v) (hr : Fits r) : v = r :=
  le_antisymm ((h r hr).2 le_rfl) ((h r hr).1 le_rfl)

theorem neg (h : Rounds r v) : Rounds (-r) (-v) := fun c hc ↦
  ⟨fun hle ↦ le_neg_of_le_neg ((h (-c) hc.neg).2 (le_neg_of_le_neg hle)),
    fun hle ↦ neg_le_of_neg_le ((h (-c) hc.neg).1 (neg_le_of_neg_le hle))⟩

end Rounds

/-- Of the two multiples of a unit next to a number one is taken, the number itself where it is one of them;
that rounds, if the multiple below has all 53 digits or the unit is the least. -/
theorem rounds_of_floor {q R : ℕ} {t : ℤ} {r : ℚ} (hlow : q * 2 ^ t ≤ r) (hhigh : r < (q + 1) * 2 ^ t)
    (hfloor : q ≤ R) (hceil : R ≤ q + 1) (hexact : r = q * 2 ^ t → R = q)
    (hfull : 2 ^ 52 ≤ q ∨ t = -1074) : Rounds r (R * 2 ^ t) := by
  have hpos : (0 : ℚ) < 2 ^ t := by positivity
  have hfloor' : (q : ℚ) ≤ R := by exact_mod_cast hfloor
  rintro _ ⟨n, j, hn, hj, rfl⟩
  rcases lt_or_ge j t with hlt | hge
  · -- the number that fits is less than every number with 53 digits before this exponent
    have hq : (2 : ℚ) ^ 52 ≤ q := by exact_mod_cast hfull.resolve_right (by omega)
    have hbelow : (n : ℚ) * 2 ^ j < q * 2 ^ t :=
      calc
        (n : ℚ) * 2 ^ j < 2 ^ 53 * 2 ^ j := by
          have hlt : (n : ℚ) < 2 ^ 53 := by exact_mod_cast (le_abs_self n).trans_lt hn
          gcongr
        _ = 2 ^ 52 * 2 ^ (j + 1) := by rw [zpow_add₀ two_ne_zero]; ring
        _ ≤ 2 ^ 52 * 2 ^ t := by
          have hpow : (2 : ℚ) ^ (j + 1) ≤ 2 ^ t := zpow_le_zpow_right₀ one_le_two (by omega)
          gcongr
        _ ≤ q * 2 ^ t := by gcongr
    exact ⟨fun _ ↦ hbelow.le.trans (by gcongr), fun hle ↦ absurd (hbelow.trans_le hlow) hle.not_gt⟩
  · -- it is a whole multiple of the unit
    obtain ⟨d, rfl⟩ : ∃ d : ℕ, j = t + d := ⟨(j - t).toNat, by omega⟩
    have hc : (n : ℚ) * 2 ^ (t + d : ℤ) = ((n * 2 ^ d : ℤ) : ℚ) * 2 ^ t := by
      rw [zpow_add₀ two_ne_zero t, zpow_natCast]
      push_cast
      ring
    rw [hc]
    generalize n * 2 ^ d = N
    constructor
    · intro hle
      have hN : (N : ℚ) < q + 1 := lt_of_mul_lt_mul_right (hle.trans_lt hhigh) hpos.le
      have hN' : N ≤ q := Int.lt_add_one_iff.mp (by exact_mod_cast hN)
      have hR : (N : ℚ) ≤ R := le_trans (by exact_mod_cast hN') hfloor'
      gcongr
    · intro hle
      have hN : (q : ℚ) ≤ N := le_of_mul_le_mul_right (hlow.trans hle) hpos
      rcases eq_or_lt_of_le hN with heq | hlt
      · have hr : r = q * 2 ^ t := le_antisymm (heq ▸ hle) hlow
        rw [hexact hr, heq]
      · have hlt' : (q : ℤ) < N := by exact_mod_cast hlt
        have hR : (R : ℤ) ≤ N := by omega
        have hR' : (R : ℚ) ≤ N := by exact_mod_cast hR
        gcongr

/-! ## Rounding a mantissa -/

section Shift

theorem mantissa_shiftRight (em : ExtendedMantissa) (k : ℕ) :
    (em >>> k).mantissa = em.mantissa / 2 ^ k := by
  induction k with
  | zero => exact (Nat.div_one _).symm
  | succ k ih =>
      change (em >>> k).mantissa / 2 = _
      rw [ih, Nat.div_div_eq_div_mul, ← pow_succ]

/-- Digits that are zeros leave nothing behind. -/
theorem shiftRight_of_mul (a k : ℕ) :
    (ExtendedMantissa.mk (a * 2 ^ k) false false) >>> k = ExtendedMantissa.mk a false false := by
  induction k generalizing a with
  | zero =>
      rw [pow_zero, mul_one]
      rfl
  | succ k ih =>
      change ExtendedMantissa.shiftRightOne (ExtendedMantissa.mk (a * 2 ^ (k + 1)) false false >>> k) = _
      rw [pow_succ', ← mul_assoc, ih]
      simp [ExtendedMantissa.shiftRightOne]

theorem le_roundedMantissa (em : ExtendedMantissa) : em.mantissa ≤ em.roundedMantissa := by
  rcases em with ⟨m, r, s⟩
  cases r <;> cases s <;> simp [ExtendedMantissa.roundedMantissa, ExtendedMantissa.accuracy,
    Accuracy.roundToNearestEven]

theorem roundedMantissa_le (em : ExtendedMantissa) : em.roundedMantissa ≤ em.mantissa + 1 := by
  rcases em with ⟨m, r, s⟩
  cases r <;> cases s <;> simp [ExtendedMantissa.roundedMantissa, ExtendedMantissa.accuracy,
    Accuracy.roundToNearestEven]
  omega

/-- The exponent that a number is given has room for 53 digits. -/
theorem targetExponent_eq (m : ℕ) (e : ℤ) :
    Format.binary64.targetExponent (totalExponent m e) = max (m.log2 + e - 52) (-1074) := by
  simp only [Format.targetExponent, totalExponent, Format.mantissaBits, Format.minExponent]
  omega

/-- How many digits are too many. -/
def excess (m : ℕ) (e : ℤ) : ℕ := (max (m.log2 + e - 52) (-1074) - e).toNat

theorem mantissa_ofMantissaAndAccuracy_shiftRight (m : ℕ) (acc : Accuracy) (k : ℕ) :
    (ExtendedMantissa.ofMantissaAndAccuracy m acc >>> k).mantissa = m / 2 ^ k := by
  rw [mantissa_shiftRight]
  rcases acc with _ | _ | _ | _ <;> rfl

theorem shiftToTargetExponent_eq (m : ℕ) (e : ℤ) (acc : Accuracy) :
    shiftToTargetExponent .binary64 m e acc =
      (ExtendedMantissa.ofMantissaAndAccuracy m acc >>> excess m e, e + excess m e) := by
  unfold shiftToTargetExponent shiftToExponent
  dsimp only
  rw [targetExponent_eq]
  rfl

/-- After rounding there are at most 53 digits, or a one and 53 zeros. -/
theorem shiftToTargetExponent_of_le {R : ℕ} {t : ℤ} (hR : R ≤ 2 ^ 53) (ht : -1074 ≤ t) :
    shiftToTargetExponent .binary64 R t .exact =
      if R = 2 ^ 53 then (ExtendedMantissa.mk (2 ^ 52) false false, t + 1)
      else (ExtendedMantissa.mk R false false, t) := by
  rw [shiftToTargetExponent_eq]
  split
  · next htop =>
    have hexcess : excess R t = 1 := by
      rw [excess, htop, Nat.log2_two_pow]
      omega
    rw [hexcess, htop]
    have hcarry : (2 : ℕ) ^ 53 = 2 ^ 52 * 2 ^ 1 := rfl
    rw [hcarry]
    exact Prod.ext (shiftRight_of_mul (2 ^ 52) 1) rfl
  · next htop =>
    have hlog : R.log2 ≤ 52 := by
      by_cases hzero : R = 0
      · simp [hzero]
      · have hbits := (Nat.log2_lt hzero).mpr (lt_of_le_of_ne hR htop)
        omega
    have hexcess : excess R t = 0 := by
      rw [excess]
      omega
    rw [hexcess, Nat.cast_zero, add_zero]
    rfl

/-- A number with a sign. -/
def withSign : Sign → ℚ → ℚ
  | .negative, r => -r
  | .positive, r => r

theorem numeric_finite {s : Sign} {m : ℕ} {e : ℤ} {hm : 0 < m} :
    numeric (.finite s m e hm) = withSign s (m * 2 ^ e) := by
  cases s
  · exact numeric_negative
  · rfl

/-- A result of rounding: it is kept as it is by packing, and it is next to the exact number. -/
structure IsRounded (u : UnpackedFloat) (r : ℚ) : Prop where
  canonical : Canonical u
  isFinite : u.isFinite = true
  rounds : Rounds r (numeric u)

/-- What is left of a number that has digits enough is 53 digits, or all but those below the least
exponent. -/
theorem div_excess_bounds {m : ℕ} {e : ℤ} (hm : m ≠ 0) (he : e ≤ max (m.log2 + e - 52) (-1074)) :
    m / 2 ^ excess m e < 2 ^ 53 ∧ (2 ^ 52 ≤ m / 2 ^ excess m e ∨ e + excess m e = -1074) := by
  have hpos : 0 < 2 ^ excess m e := by positivity
  have hexcess : e + excess m e = max (m.log2 + e - 52) (-1074) := by
    rw [excess]
    omega
  constructor
  · rw [Nat.div_lt_iff_lt_mul hpos, ← pow_add]
    exact Nat.lt_of_lt_of_le Nat.lt_log2_self (Nat.pow_le_pow_right two_pos (by omega))
  · by_cases hleast : e + excess m e = -1074
    · exact .inr hleast
    · left
      rw [Nat.le_div_iff_mul_le hpos, ← pow_add]
      exact (Nat.pow_le_pow_right two_pos (by omega)).trans (Nat.log2_self_le hm)

/-- Packing what has been rounded: a one and 53 zeros lose a zero. -/
theorem isRounded_of_roundWithAccuracy {s : Sign} {m R : ℕ} {e t : ℤ} {acc : Accuracy} {r : ℚ}
    (hfirst : ∃ em, shiftToTargetExponent .binary64 m e acc = (em, t) ∧ em.roundedMantissa = R)
    (hR : R ≤ 2 ^ 53) (hfull : 2 ^ 52 ≤ R ∨ t = -1074) (hlow : -1074 ≤ t) (hhigh : t ≤ 970)
    (hrounds : Rounds r (withSign s (R * 2 ^ t))) :
    IsRounded (roundWithAccuracy .binary64 s m e acc) r := by
  obtain ⟨em, hem, rfl⟩ := hfirst
  unfold roundWithAccuracy
  rw [hem]
  dsimp only
  rw [shiftToTargetExponent_of_le hR hlow]
  by_cases htop : em.roundedMantissa = 2 ^ 53
  · simp only [htop, if_true]
    rw [dif_neg (by decide)]
    refine ⟨⟨by decide, .inl (by decide), by omega, by omega⟩, rfl, ?_⟩
    rw [htop] at hrounds
    rw [numeric_finite, zpow_add₀ two_ne_zero]
    convert hrounds using 2
    push_cast
    ring
  · simp only [if_neg htop]
    split
    · next hzero =>
      rw [hzero, Nat.cast_zero, zero_mul] at hrounds
      refine ⟨trivial, rfl, ?_⟩
      cases s
      · rwa [withSign, neg_zero] at hrounds
      · exact hrounds
    · next hzero =>
      refine ⟨⟨lt_of_le_of_ne hR htop, hfull, hlow, by omega⟩, rfl, ?_⟩
      rwa [numeric_finite]

theorem Rounds.withSign {r v : ℚ} (s : Sign) (h : Rounds r v) :
    Rounds (withSign s r) (withSign s v) := by
  cases s
  · exact h.neg
  · exact h

/-- What the accuracy of a mantissa says about the exact number. -/
def Approximates (m : ℕ) (e : ℤ) : Accuracy → ℚ → Prop
  | .exact, r => r = m * 2 ^ e
  | .inexact _, r => m * 2 ^ e < r ∧ r < (m + 1) * 2 ^ e

theorem Approximates.bounds {m : ℕ} {e : ℤ} {acc : Accuracy} {r : ℚ} (h : Approximates m e acc r) :
    m * 2 ^ e ≤ r ∧ r < (m + 1) * 2 ^ e := by
  have hpos : (0 : ℚ) < 2 ^ e := by positivity
  cases acc with
  | exact =>
      obtain rfl : r = m * 2 ^ e := h
      exact ⟨le_rfl, by gcongr; exact lt_add_one _⟩
  | inexact => exact ⟨h.1.le, h.2⟩

/-- Cutting digits off and rounding what is left takes one of the multiples next to the exact number. -/
theorem Approximates.rounds {m : ℕ} {e : ℤ} {acc : Accuracy} {r : ℚ} (h : Approximates m e acc r) {k : ℕ}
    (hfull : 2 ^ 52 ≤ m / 2 ^ k ∨ e + k = -1074) :
    Rounds r ((ExtendedMantissa.ofMantissaAndAccuracy m acc >>> k).roundedMantissa * 2 ^ (e + k)) := by
  generalize hem : ExtendedMantissa.ofMantissaAndAccuracy m acc >>> k = em
  have hmantissa : em.mantissa = m / 2 ^ k := hem ▸ mantissa_ofMantissaAndAccuracy_shiftRight m acc k
  have hscale : ∀ x : ℚ, x * 2 ^ (e + k) = x * 2 ^ k * 2 ^ e := fun x ↦ by
    rw [zpow_add₀ two_ne_zero, zpow_natCast]
    ring
  have hbelow : ((m / 2 ^ k : ℕ) : ℚ) * 2 ^ (e + k) ≤ m * 2 ^ e := by
    have hdiv : ((m / 2 ^ k : ℕ) : ℚ) * 2 ^ k ≤ m := by exact_mod_cast Nat.div_mul_le_self m (2 ^ k)
    rw [hscale]
    gcongr
  have habove : (m + 1 : ℚ) * 2 ^ e ≤ ((m / 2 ^ k : ℕ) + 1) * 2 ^ (e + k) := by
    have hdiv : (m + 1 : ℚ) ≤ ((m / 2 ^ k : ℕ) + 1) * 2 ^ k := by
      rw [mul_comm]
      exact_mod_cast Nat.lt_mul_div_succ m (by positivity)
    rw [hscale]
    gcongr
  have hfloor : m / 2 ^ k ≤ em.roundedMantissa := hmantissa ▸ le_roundedMantissa em
  have hceil : em.roundedMantissa ≤ m / 2 ^ k + 1 := hmantissa ▸ roundedMantissa_le em
  refine rounds_of_floor (hbelow.trans h.bounds.1) (h.bounds.2.trans_le habove) hfloor hceil (fun heq ↦ ?_) hfull
  cases acc with
  | exact =>
      obtain rfl : r = m * 2 ^ e := h
      rw [hscale, mul_left_inj' (by positivity)] at heq
      have hmul : m = m / 2 ^ k * 2 ^ k := by exact_mod_cast heq
      have hexact : em = ExtendedMantissa.mk (m / 2 ^ k) false false := by
        rw [← hem, ← shiftRight_of_mul, ← hmul]
        rfl
      rw [hexact]
      rfl
  | inexact => exact absurd (heq ▸ h.1) hbelow.not_gt

theorem isRounded_roundWithAccuracy (s : Sign) {m : ℕ} {e : ℤ} {acc : Accuracy} {r : ℚ} (hm : m ≠ 0)
    (he : e ≤ max (m.log2 + e - 52) (-1074)) (hhigh : m.log2 + e ≤ 1022) (hr : Approximates m e acc r) :
    IsRounded (roundWithAccuracy .binary64 s m e acc) (withSign s r) := by
  obtain ⟨hlt, hfull⟩ := div_excess_bounds hm he
  have hexcess : e + excess m e = max (m.log2 + e - 52) (-1074) := by
    rw [excess]
    omega
  let em := ExtendedMantissa.ofMantissaAndAccuracy m acc >>> excess m e
  have hmantissa : em.mantissa = m / 2 ^ excess m e :=
    mantissa_ofMantissaAndAccuracy_shiftRight m acc (excess m e)
  have hfloor : m / 2 ^ excess m e ≤ em.roundedMantissa := hmantissa ▸ le_roundedMantissa em
  have hceil : em.roundedMantissa ≤ m / 2 ^ excess m e + 1 := hmantissa ▸ roundedMantissa_le em
  exact isRounded_of_roundWithAccuracy ⟨em, shiftToTargetExponent_eq m e acc, rfl⟩ (by omega)
    (hfull.imp_left hfloor.trans') (by omega) (by omega) ((hr.rounds hfull).withSign s)

theorem isRounded_round (s : Sign) {m : ℕ} {e : ℤ} (hm : m ≠ 0) (hhigh : m.log2 + e ≤ 1022) :
    IsRounded (UnpackedFloat.round .binary64 s m e) (withSign s (m * 2 ^ e)) := by
  unfold UnpackedFloat.round decreaseExponent
  dsimp only
  rw [targetExponent_eq, Nat.shiftLeft_eq]
  generalize hk : (e - max (m.log2 + e - 52) (-1074)).toNat = k
  have hpos : m * 2 ^ k ≠ 0 := by positivity
  have hlog : (m * 2 ^ k).log2 = m.log2 + k := by
    rw [Nat.log2_eq_iff hpos, pow_add, add_right_comm, pow_add]
    have hlow := Nat.log2_self_le hm
    have hhigh := Nat.lt_log2_self (n := m)
    exact ⟨by gcongr, by gcongr⟩
  have hvalue : ((m * 2 ^ k : ℕ) : ℚ) * 2 ^ (e - k) = m * 2 ^ e := by
    rw [zpow_sub₀ two_ne_zero, zpow_natCast]
    push_cast
    field_simp
  rw [← hvalue]
  exact isRounded_roundWithAccuracy s hpos (by rw [hlog]; omega) (by rw [hlog]; omega) rfl

/-- A whole number with a power of two, which is not too large. -/
theorem log2_add_le {m : ℕ} {e : ℤ} (hm : m ≠ 0) (h : (m : ℚ) * 2 ^ e < 2 ^ 1000) :
    m.log2 + e ≤ 1022 := by
  have hlog : (2 : ℚ) ^ m.log2 ≤ m := by exact_mod_cast Nat.log2_self_le hm
  have hlt : (2 : ℚ) ^ (m.log2 + e) < 2 ^ (1000 : ℤ) :=
    calc
      (2 : ℚ) ^ (m.log2 + e) = 2 ^ m.log2 * 2 ^ e := by rw [zpow_add₀ two_ne_zero, zpow_natCast]
      _ ≤ m * 2 ^ e := by gcongr
      _ < 2 ^ (1000 : ℤ) := h
  have hexponent := (zpow_lt_zpow_iff_right₀ one_lt_two).mp hlt
  omega

theorem isRounded_normalize {n e : ℤ} {s : Sign} (h : |(n : ℚ) * 2 ^ e| < 2 ^ 1000) :
    IsRounded (UnpackedFloat.normalize .binary64 n e s) (n * 2 ^ e) := by
  unfold UnpackedFloat.normalize
  rcases lt_trichotomy n 0 with hn | rfl | hn
  · have hm : (-n).toNat ≠ 0 := by omega
    have hcast : (((-n).toNat : ℕ) : ℚ) = -n := by exact_mod_cast Int.toNat_of_nonneg (a := -n) (by omega)
    have hlog := log2_add_le (m := (-n).toNat) (e := e) hm <| by
      rw [hcast, neg_mul]
      exact (neg_le_abs _).trans_lt h
    have hround := isRounded_round .negative hm hlog
    rw [compare_lt_iff_lt.mpr hn]
    rwa [hcast, withSign, neg_mul, neg_neg] at hround
  · rw [Int.cast_zero, zero_mul]
    exact ⟨trivial, rfl, .refl 0⟩
  · have hm : n.toNat ≠ 0 := by omega
    have hcast : ((n.toNat : ℕ) : ℚ) = n := by exact_mod_cast Int.toNat_of_nonneg hn.le
    have hlog := log2_add_le (m := n.toNat) (e := e) hm <| by
      rw [hcast]
      exact (le_abs_self _).trans_lt h
    have hround := isRounded_round .positive hm hlog
    rw [compare_gt_iff_gt.mpr hn]
    rwa [hcast] at hround

end Shift

/-! ## Packing -/

section Packing

variable {s : Sign} {field fraction : ℕ} {b : BitVec Format.binary64.numBits}

theorem unpack_normal (hb : b = packComponents .binary64 s (BitVec.ofNat 11 field) (BitVec.ofNat 52 fraction))
    (hfield : field < 2047) (hpos : field ≠ 0) (hfraction : fraction < 2 ^ 52) :
    ∃ h, unpack .binary64 b = .finite s (2 ^ 52 + fraction) ((field : ℤ) - 1075) h := by
  have hsign : Sign.ofBitVec (unpackSign b) = s := by
    rw [hb, unpackSign_packComponents]
    cases s <;> rfl
  have hexponent : (unpackExponent b).toNat = field := by
    rw [hb, unpackExponent_packComponents, BitVec.toNat_ofNat]
    exact Nat.mod_eq_of_lt (Nat.lt_succ_of_lt hfield)
  have hmantissa : (unpackMantissa b).toNat = fraction := by
    rw [hb, unpackMantissa_packComponents, BitVec.toNat_ofNat, Nat.mod_eq_of_lt hfraction]
  have hones : unpackExponent b ≠ -1#11 := fun h ↦ by
    rw [h] at hexponent
    exact absurd hexponent.symm (Nat.ne_of_lt hfield)
  have hzero : unpackExponent b ≠ 0#11 := fun h ↦ by
    rw [h] at hexponent
    exact hpos hexponent.symm
  have hbias : Format.binary64.exponentBias = 1023 := by decide
  refine ⟨by omega, ?_⟩
  unfold unpack
  dsimp only
  rw [if_neg hones, if_neg hzero, UnpackedFloat.finite.injEq, hexponent, hbias]
  exact ⟨hsign, (toNat_one_append_unpackMantissa b).trans (by rw [hmantissa]), rfl⟩

theorem unpack_subnormal (hb : b = packComponents .binary64 s 0#11 (BitVec.ofNat 52 fraction))
    (hpos : 0 < fraction) (hfraction : fraction < 2 ^ 52) :
    unpack .binary64 b = .finite s fraction (-1074) hpos := by
  have hsign : Sign.ofBitVec (unpackSign b) = s := by
    rw [hb, unpackSign_packComponents]
    cases s <;> rfl
  have hexponent : unpackExponent b = 0#11 := by rw [hb, unpackExponent_packComponents]
  have hmantissa : (unpackMantissa b).toNat = fraction := by
    rw [hb, unpackMantissa_packComponents, BitVec.toNat_ofNat, Nat.mod_eq_of_lt hfraction]
  have hsome : unpackMantissa b ≠ 0#52 := fun h ↦ by
    rw [h] at hmantissa
    exact absurd hmantissa (Nat.ne_of_lt hpos)
  have hbias : Format.binary64.exponentBias = 1023 := by decide
  unfold unpack
  dsimp only
  rw [if_neg (by rw [hexponent]; decide), if_pos hexponent, dif_neg hsome]
  simp only [hsign, hexponent, hmantissa, hbias]
  rfl

/-- Nothing is lost by packing. -/
theorem unpack_pack {u : UnpackedFloat} (h : Canonical u) : unpack .binary64 (pack .binary64 u) = u := by
  cases u with
  | notANumber => rfl
  | infinity s => cases s <;> rfl
  | zero s => cases s <;> rfl
  | finite s m e hm =>
      obtain ⟨hlt, hfull, hlow, hhigh⟩ := h
      by_cases hnormal : 2 ^ 52 ≤ m
      · obtain ⟨fraction, rfl⟩ : ∃ fraction, m = 2 ^ 52 + fraction := ⟨m - 2 ^ 52, by omega⟩
        obtain ⟨field, hfield⟩ : ∃ field : ℕ, e = field - 1075 := ⟨(e + 1075).toNat, by omega⟩
        have hpack := pack_normal (s := s) hm hnormal hlt (by omega) hfield
        have hfraction : BitVec.ofNat 52 (2 ^ 52 + fraction) = BitVec.ofNat 52 fraction := by
          refine BitVec.eq_of_toNat_eq ?_
          rw [BitVec.toNat_ofNat, BitVec.toNat_ofNat]
          omega
        rw [hfraction] at hpack
        obtain ⟨h, hunpack⟩ := unpack_normal hpack (by omega) (by omega) (by omega)
        rw [hunpack]
        congr 1
        exact hfield.symm
      · obtain rfl : e = -1074 := hfull.resolve_left hnormal
        exact unpack_subnormal (pack_subnormal hm (by omega)) hm (by omega)

end Packing

/-! ## Sums and differences -/

section Sums

/-- With more digits and a lesser exponent a number is the same. -/
theorem apply_decreaseExponent {s : Sign} {m : ℕ} {e t : ℤ} {hm : 0 < m} (h : t ≤ e) :
    ((s.apply (decreaseExponent m e t).1 : ℤ) : ℚ) * 2 ^ t = numeric (.finite s m e hm) := by
  have hvalue : (((decreaseExponent m e t).1 : ℕ) : ℚ) * 2 ^ t = m * 2 ^ e := by
    unfold decreaseExponent
    dsimp only
    obtain ⟨k, rfl⟩ : ∃ k : ℕ, e = t + k := ⟨(e - t).toNat, by omega⟩
    rw [add_sub_cancel_left, Int.toNat_natCast, Nat.shiftLeft_eq, zpow_add₀ two_ne_zero, zpow_natCast]
    push_cast
    ring
  rw [numeric_finite, ← hvalue]
  cases s
  · simp [Sign.apply, withSign]
  · rfl

theorem numeric_neg (u : UnpackedFloat) : numeric u.neg = -numeric u := by
  cases u with
  | finite s m e hm =>
      change numeric (.finite (-s) m e hm) = _
      cases s with
      | negative => rw [show -Sign.negative = .positive from rfl, numeric_positive, numeric_negative, neg_neg]
      | positive => rw [show -Sign.positive = .negative from rfl, numeric_positive, numeric_negative]
  | _ => exact neg_zero.symm

variable {a b : UnpackedFloat}

theorem isRounded_add (ha : Canonical a) (hb : Canonical b) (hfa : a.isFinite = true)
    (hfb : b.isFinite = true) (h : |numeric a + numeric b| < 2 ^ 1000) :
    IsRounded (UnpackedFloat.add .binary64 a b) (numeric a + numeric b) := by
  cases a with
  | infinity => cases hfa
  | notANumber => cases hfa
  | zero s =>
      cases b with
      | infinity => cases hfb
      | notANumber => cases hfb
      | zero s' =>
          have hzero : Rounds (numeric (.zero s) + numeric (.zero s')) 0 := by
            rw [show numeric (.zero s) + numeric (.zero s') = 0 from add_zero 0]
            exact .refl 0
          cases s <;> cases s' <;> exact ⟨trivial, rfl, hzero⟩
      | finite => exact ⟨hb, rfl, by rw [show numeric (.zero s) = 0 from rfl, zero_add]; exact .refl _⟩
  | finite s m e hm =>
      cases b with
      | infinity => cases hfb
      | notANumber => cases hfb
      | zero s' => exact ⟨ha, rfl, by rw [show numeric (.zero s') = 0 from rfl, add_zero]; exact .refl _⟩
      | finite s' m' e' hm' =>
          unfold UnpackedFloat.add
          dsimp only
          have hvalue : ((s.apply (decreaseExponent m e (min e e')).1 +
              s'.apply (decreaseExponent m' e' (min e e')).1 : ℤ) : ℚ) * 2 ^ (min e e') =
                numeric (.finite s m e hm) + numeric (.finite s' m' e' hm') := by
            rw [Int.cast_add, add_mul, apply_decreaseExponent (min_le_left e e'),
              apply_decreaseExponent (min_le_right e e')]
          rw [← hvalue] at h ⊢
          exact isRounded_normalize h

theorem apply_neg (s : Sign) (n : ℤ) : (-s).apply n = -s.apply n := by
  cases s
  · exact (neg_neg n).symm
  · rfl

/-- A difference is the sum with the opposite. -/
theorem sub_eq_add (a b : UnpackedFloat) :
    UnpackedFloat.sub .binary64 a b = UnpackedFloat.add .binary64 a b.neg := by
  cases a <;> cases b <;>
    simp [UnpackedFloat.sub, UnpackedFloat.add, UnpackedFloat.neg, apply_neg, sub_eq_add_neg]

theorem canonical_neg (h : Canonical a) : Canonical a.neg := by
  cases a <;> exact h

theorem isFinite_neg (h : a.isFinite = true) : a.neg.isFinite = true := by
  cases a <;> exact h

variable {x y : Float}

theorem fits_value (x : Float) : Fits (ofFloat x).value := by
  have hzero : Fits 0 := ⟨0, 0, by decide, by decide, by simp⟩
  rw [value_ofFloat]
  have h := canonical_unpacked x
  cases hx : unpacked x with
  | finite s m e hm =>
      rw [hx] at h
      refine ⟨s.apply m, e, ?_, h.2.2.1, rfl⟩
      have habs : |s.apply m| = m := by
        cases s
        · exact (abs_neg _).trans (Nat.abs_cast m)
        · exact Nat.abs_cast m
      rw [habs]
      exact_mod_cast h.1
  | _ => exact hzero

theorem isFinite_and_rounds {u : UnpackedFloat} {r : ℚ} (h : IsRounded u r)
    (hx : x = .ofModel (.pack u)) : x.isFinite = true ∧ Rounds r (ofFloat x).value := by
  have hu : unpacked x = u := by
    rw [hx]
    exact unpack_pack h.canonical
  rw [value_ofFloat, hu]
  refine ⟨?_, h.rounds⟩
  change (unpacked x).isFinite = true
  rw [hu, h.isFinite]

/-- **The sum of finite doubles is the exact sum, rounded.** -/
theorem isFinite_and_rounds_add (hx : x.isFinite = true) (hy : y.isFinite = true)
    (h : |(ofFloat x).value + (ofFloat y).value| < 2 ^ 1000) :
    (x + y).isFinite = true ∧ Rounds ((ofFloat x).value + (ofFloat y).value) (ofFloat (x + y)).value := by
  refine isFinite_and_rounds ?_ rfl
  rw [value_ofFloat, value_ofFloat] at h ⊢
  exact isRounded_add (canonical_unpacked x) (canonical_unpacked y) hx hy h

/-- **The difference of finite doubles is the exact difference, rounded.** -/
theorem isFinite_and_rounds_sub (hx : x.isFinite = true) (hy : y.isFinite = true)
    (h : |(ofFloat x).value - (ofFloat y).value| < 2 ^ 1000) :
    (x - y).isFinite = true ∧ Rounds ((ofFloat x).value - (ofFloat y).value) (ofFloat (x - y)).value := by
  refine isFinite_and_rounds (u := .sub .binary64 (unpacked x) (unpacked y)) ?_ rfl
  rw [value_ofFloat, value_ofFloat, sub_eq_add_neg, ← numeric_neg] at h ⊢
  rw [sub_eq_add]
  exact isRounded_add (canonical_unpacked x) (canonical_neg (canonical_unpacked y)) hx (isFinite_neg hy) h

theorem unpacked_abs (x : Float) : unpacked x.abs = (unpacked x).abs := by
  have hcanonical : Canonical (unpacked x).abs := by
    have h := canonical_unpacked x
    revert h
    cases unpacked x <;> exact id
  exact unpack_pack hcanonical

theorem isFinite_abs (hx : x.isFinite = true) : x.abs.isFinite = true := by
  change (unpacked x).isFinite = true at hx
  change (unpacked x.abs).isFinite = true
  rw [unpacked_abs]
  revert hx
  cases unpacked x <;> exact id

/-- **The absolute value of a double is exact.** -/
theorem value_ofFloat_abs (x : Float) : (ofFloat x.abs).value = |(ofFloat x).value| := by
  rw [value_ofFloat, value_ofFloat, unpacked_abs]
  cases unpacked x with
  | finite s m e hm =>
      have hpos : (0 : ℚ) ≤ m * 2 ^ e := by positivity
      cases s with
      | negative => rw [numeric_negative, abs_neg, abs_of_nonneg hpos]; rfl
      | positive => rw [numeric_positive, abs_of_nonneg hpos]; rfl
  | _ => exact abs_zero.symm

end Sums

end FormulaNet.Binary64

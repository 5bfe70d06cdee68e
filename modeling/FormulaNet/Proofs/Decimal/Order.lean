import FormulaNet.Proofs.Decimal.Value

/-!
# The order of doubles

Doubles are compared in unpacked form, a sign, a mantissa and an exponent: exponents first, then mantissas.
That is the order of the numbers that they are, since a mantissa is as long as its exponent allows.  What is
not a number compares with nothing.
-/

namespace FormulaNet.Binary64

open Float.Model (Format UnpackedFloat)
open Float.Model.UnpackedFloat

/-- The form in which doubles are compared and calculated with. -/
def unpacked (x : Float) : UnpackedFloat := x.toModel.unpack

section Comparison

variable {x y : Float}

theorem lt_iff : x < y ↔ (unpacked x).compare (unpacked y) = some .lt := by
  change decide (UnpackedFloat.lt (unpacked x) (unpacked y) = true) = true ↔ _
  rw [decide_eq_true_iff, UnpackedFloat.lt, beq_iff_eq]

theorem le_iff : x ≤ y ↔ ∃ o, (unpacked x).compare (unpacked y) = some o ∧ o.isLE = true := by
  change decide (UnpackedFloat.le (unpacked x) (unpacked y) = true) = true ↔ _
  rw [decide_eq_true_iff, UnpackedFloat.le, Option.any_eq_true]

theorem beq_iff : (x == y) = true ↔ (unpacked x).compare (unpacked y) = some .eq := by
  change UnpackedFloat.beq (unpacked x) (unpacked y) = true ↔ _
  rw [UnpackedFloat.beq, beq_iff_eq]

theorem isNaN_iff : x.isNaN = true ↔ unpacked x = .notANumber := by
  change (unpacked x).isNaN = true ↔ _
  cases unpacked x <;> simp [UnpackedFloat.isNaN]

theorem compare_eq_none_iff {a b : UnpackedFloat} :
    a.compare b = none ↔ a = .notANumber ∨ b = .notANumber := by
  fun_cases UnpackedFloat.compare a b <;> simp_all

/-- Comparing the other way round gives the opposite. -/
theorem swap_compare (a b : UnpackedFloat) : (a.compare b).map Ordering.swap = b.compare a := by
  have hsign : ∀ s s' : Sign, (compare s s').swap = compare s' s := by
    intro s s'
    cases s <;> cases s' <;> rfl
  have hlex : ∀ (e e' : Int) (m m' : Nat),
      ((compare e e').then (compare m m')).swap = (compare e' e).then (compare m' m) := by
    intro e e' m m'
    rw [Ordering.swap_then, ← Std.OrientedCmp.eq_swap, ← Std.OrientedCmp.eq_swap]
  fun_cases UnpackedFloat.compare a b
  case case1 => exact (compare_eq_none_iff.mpr (.inr rfl)).symm
  case case3 s s' => simp [UnpackedFloat.compare, hsign]
  case case13 => simp only [UnpackedFloat.compare, Option.map_some, hlex]
  case case16 => simp [UnpackedFloat.compare, hlex]
  all_goals simp_all [UnpackedFloat.compare]

theorem not_lt_of_lt (h : x < y) : ¬y < x := by
  rw [lt_iff] at h
  rw [lt_iff, ← swap_compare, h]
  exact nofun

/-- Two doubles of which neither is less are equal, or one of them is not a number. -/
theorem not_lt_and_not_lt_iff : ¬x < y ∧ ¬y < x ↔ (x == y) = true ∨ x.isNaN = true ∨ y.isNaN = true := by
  rw [lt_iff, lt_iff, beq_iff, isNaN_iff, isNaN_iff, ← compare_eq_none_iff,
    ← swap_compare (unpacked x) (unpacked y)]
  rcases (unpacked x).compare (unpacked y) with _ | o
  · simp
  · cases o <;> simp

theorem isNaN_eq_false_of_isFinite (h : x.isFinite = true) : x.isNaN = false := by
  change (unpacked x).isFinite = true at h
  change (unpacked x).isNaN = false
  cases hx : unpacked x <;> simp_all [UnpackedFloat.isFinite, UnpackedFloat.isNaN]

end Comparison

/-! ## The numbers compared -/

/-- The number of a sign, a mantissa and an exponent; what is no finite number counts as zero. -/
def numeric : UnpackedFloat → ℚ
  | .finite s m e _ => s.apply m * 2 ^ e
  | _ => 0

/-- The mantissa has all its digits, or the exponent is the least. -/
def Canonical : UnpackedFloat → Prop
  | .finite _ m e _ => m < 2 ^ 53 ∧ (2 ^ 52 ≤ m ∨ e = -1074) ∧ -1074 ≤ e ∧ e ≤ 971
  | _ => True

section Unpack

variable (b : BitVec Format.binary64.numBits)

theorem toNat_one_append_unpackMantissa :
    (1#1 ++ unpackMantissa b).toNat = 2 ^ 52 + (unpackMantissa b).toNat := by
  have hfraction : (unpackMantissa b).toNat < 2 ^ 52 := (unpackMantissa b).isLt
  rw [BitVec.toNat_append, ← Nat.shiftLeft_add_eq_or_of_lt hfraction]
  rfl

theorem canonical_unpack : Canonical (unpack .binary64 b) := by
  have hfraction : (unpackMantissa b).toNat < 2 ^ 52 := (unpackMantissa b).isLt
  have hmantissa := toNat_one_append_unpackMantissa b
  have hfield : (unpackExponent b).toNat < 2 ^ 11 := (unpackExponent b).isLt
  unfold unpack
  dsimp only
  split
  · split <;> trivial
  · next hones =>
    have hne : (unpackExponent b).toNat ≠ 2047 := fun heq ↦ hones (BitVec.eq_of_toNat_eq heq)
    have hbias : Format.binary64.exponentBias = 1023 := by decide
    split
    · next hzero =>
      split
      · trivial
      · rw [hzero]
        refine ⟨by omega, .inr ?_, ?_, ?_⟩ <;> simp [hbias]
    · next hzero =>
      have hpos : (unpackExponent b).toNat ≠ 0 := fun heq ↦ hzero (BitVec.eq_of_toNat_eq heq)
      refine ⟨by omega, .inl (by omega), ?_, ?_⟩ <;> simp only [hbias] <;> omega

theorem sign_apply (s : BitVec 1) (m : Nat) :
    (((Sign.ofBitVec s).apply m : ℤ) : ℚ) = (if s == 1#1 then -1 else 1) * m := by
  rcases BitVec.eq_zero_or_eq_one s with rfl | rfl
  · simp [Sign.ofBitVec, Sign.apply]
  · simp [Sign.ofBitVec, Sign.apply]

theorem value_ofFields_unpack :
    (ofFields (unpackSign b == 1#1) (unpackExponent b).toNat (unpackMantissa b).toNat).value =
      numeric (unpack .binary64 b) := by
  have hbias : Format.binary64.exponentBias = 1023 := by decide
  unfold unpack
  dsimp only
  split
  · next hones =>
    rw [hones]
    refine (value_ofFields_ones _ _).trans ?_
    split <;> rfl
  · next hones =>
    have hne : (unpackExponent b).toNat ≠ 2047 := fun heq ↦ hones (BitVec.eq_of_toNat_eq heq)
    rw [ofFields, if_neg hne]
    by_cases hzero : unpackExponent b = 0#11
    · have hfield : (unpackExponent b).toNat = 0 := congrArg BitVec.toNat hzero
      rw [if_pos hfield, if_pos hzero, hfield]
      split
      · next hnone => simp [hnone, value, numeric]
      · simp [value, numeric, sign_apply, hbias]
    · have hfield : (unpackExponent b).toNat ≠ 0 := fun heq ↦ hzero (BitVec.eq_of_toNat_eq heq)
      rw [if_neg hfield, if_neg hzero, numeric, toNat_one_append_unpackMantissa, sign_apply, value]
      simp [hbias]

end Unpack

section Magnitudes

variable {m m' : ℕ} {e e' : ℤ}

/-- The lesser exponent is that of the lesser number, whatever the mantissas are. -/
theorem mul_zpow_lt_of_lt (hm : m < 2 ^ 53) (hm' : 2 ^ 52 ≤ m' ∨ e' = -1074) (hlow : -1074 ≤ e)
    (he : e < e') : (m : ℚ) * 2 ^ e < m' * 2 ^ e' := by
  have hfull : (2 : ℚ) ^ 52 ≤ m' := by exact_mod_cast hm'.resolve_right (by omega)
  calc
    (m : ℚ) * 2 ^ e < 2 ^ 53 * 2 ^ e := by
      have hlt : (m : ℚ) < 2 ^ 53 := by exact_mod_cast hm
      gcongr
    _ = 2 ^ 52 * 2 ^ (e + 1) := by rw [zpow_add₀ two_ne_zero]; ring
    _ ≤ 2 ^ 52 * 2 ^ e' := by
      have hpow : (2 : ℚ) ^ (e + 1) ≤ 2 ^ e' := zpow_le_zpow_right₀ one_le_two (by omega)
      gcongr
    _ ≤ m' * 2 ^ e' := by gcongr

theorem compare_mul_zpow (hm : m < 2 ^ 53) (hm' : m' < 2 ^ 53) (hfull : 2 ^ 52 ≤ m ∨ e = -1074)
    (hfull' : 2 ^ 52 ≤ m' ∨ e' = -1074) (hlow : -1074 ≤ e) (hlow' : -1074 ≤ e') :
    (compare e e').then (compare m m') = compare ((m : ℚ) * 2 ^ e) (m' * 2 ^ e') := by
  rcases lt_trichotomy e e' with he | rfl | he
  · rw [compare_lt_iff_lt.mpr he, compare_lt_iff_lt.mpr (mul_zpow_lt_of_lt hm hfull' hlow he)]
    rfl
  · have hpos : (0 : ℚ) < 2 ^ e := by positivity
    rw [compare_eq_iff_eq.mpr rfl, Ordering.eq_then]
    rcases lt_trichotomy m m' with h | rfl | h
    · rw [compare_lt_iff_lt.mpr h, eq_comm, compare_lt_iff_lt]
      gcongr
    · simp
    · rw [compare_gt_iff_gt.mpr h, eq_comm, compare_gt_iff_gt]
      gcongr
  · rw [compare_gt_iff_gt.mpr he, compare_gt_iff_gt.mpr (mul_zpow_lt_of_lt hm' hfull hlow' he)]
    rfl

end Magnitudes

theorem compare_neg (p q : ℚ) : compare (-p) (-q) = (compare p q).swap := by
  rw [← Std.OrientedCmp.eq_swap]
  rcases lt_trichotomy p q with h | rfl | h
  · rw [compare_gt_iff_gt.mpr h, compare_gt_iff_gt.mpr (neg_lt_neg h)]
  · simp
  · rw [compare_lt_iff_lt.mpr h, compare_lt_iff_lt.mpr (neg_lt_neg h)]

theorem numeric_positive {m : ℕ} {e : ℤ} {hm : 0 < m} :
    numeric (.finite .positive m e hm) = m * 2 ^ e := rfl

theorem numeric_negative {m : ℕ} {e : ℤ} {hm : 0 < m} :
    numeric (.finite .negative m e hm) = -(m * 2 ^ e) := by
  simp [numeric, Sign.apply]

/-- **Finite doubles are compared like the numbers that they are.** -/
theorem compare_eq {a b : UnpackedFloat} (ha : Canonical a) (hb : Canonical b) (hfa : a.isFinite = true)
    (hfb : b.isFinite = true) : a.compare b = some (compare (numeric a) (numeric b)) := by
  have hpos : ∀ {m : ℕ} (e : ℤ), 0 < m → (0 : ℚ) < m * 2 ^ e := fun e hm ↦ by positivity
  cases a with
  | infinity => cases hfa
  | notANumber => cases hfa
  | zero s =>
      cases b with
      | infinity => cases hfb
      | notANumber => cases hfb
      | zero => exact congrArg some (compare_eq_iff_eq.mpr rfl).symm
      | finite s' m' e' hm' =>
          have h := hpos e' hm'
          cases s' with
          | positive => exact congrArg some (compare_lt_iff_lt.mpr h).symm
          | negative =>
              rw [numeric_negative]
              exact congrArg some (compare_gt_iff_gt.mpr (neg_lt_zero.mpr h)).symm
  | finite s m e hm =>
      have h := hpos e hm
      cases b with
      | infinity => cases hfb
      | notANumber => cases hfb
      | zero =>
          cases s with
          | positive => exact congrArg some (compare_gt_iff_gt.mpr h).symm
          | negative =>
              rw [numeric_negative]
              exact congrArg some (compare_lt_iff_lt.mpr (neg_lt_zero.mpr h)).symm
      | finite s' m' e' hm' =>
          have h' := hpos e' hm'
          have hcompare := compare_mul_zpow ha.1 hb.1 ha.2.1 hb.2.1 ha.2.2.1 hb.2.2.1
          cases s with
          | positive =>
              cases s' with
              | positive => exact congrArg some hcompare
              | negative =>
                  rw [numeric_negative]
                  exact congrArg some (compare_gt_iff_gt.mpr ((neg_lt_zero.mpr h').trans h)).symm
          | negative =>
              cases s' with
              | positive =>
                  rw [numeric_negative]
                  exact congrArg some (compare_lt_iff_lt.mpr ((neg_lt_zero.mpr h).trans h')).symm
              | negative =>
                  rw [numeric_negative, numeric_negative, compare_neg, ← hcompare]
                  rfl

section Finite

variable {x y : Float}

theorem canonical_unpacked (x : Float) : Canonical (unpacked x) := canonical_unpack _

theorem value_ofFloat (x : Float) : (ofFloat x).value = numeric (unpacked x) := by
  rw [ofFloat_eq]
  exact value_ofFields_unpack _

theorem compare_unpacked (hx : x.isFinite = true) (hy : y.isFinite = true) :
    (unpacked x).compare (unpacked y) = some (compare (ofFloat x).value (ofFloat y).value) := by
  rw [value_ofFloat, value_ofFloat]
  exact compare_eq (canonical_unpacked x) (canonical_unpacked y) hx hy

theorem lt_iff_value (hx : x.isFinite = true) (hy : y.isFinite = true) :
    x < y ↔ (ofFloat x).value < (ofFloat y).value := by
  rw [lt_iff, compare_unpacked hx hy, Option.some_inj, compare_lt_iff_lt]

theorem le_iff_value (hx : x.isFinite = true) (hy : y.isFinite = true) :
    x ≤ y ↔ (ofFloat x).value ≤ (ofFloat y).value := by
  rw [le_iff, compare_unpacked hx hy, ← compare_le_iff_le]
  rcases compare (ofFloat x).value (ofFloat y).value <;> simp [Ordering.isLE]

/-- A finite double by its parts. -/
theorem exists_ofFloat_of_isFinite (hx : x.isFinite = true) :
    ∃ negative mantissa exponent, ofFloat x = .finite negative mantissa exponent := by
  rw [ofFloat_eq, ofFields]
  split
  · next h =>
    have hones : unpackExponent (bits x) = -1#11 := BitVec.eq_of_toNat_eq h
    change (unpack .binary64 (bits x)).isFinite = true at hx
    rw [unpack, if_pos hones] at hx
    split at hx <;> cases hx
  · split <;> exact ⟨_, _, _, rfl⟩

/-- What lies between finite doubles is finite. -/
theorem isFinite_of_le_of_le {z : Float} (hx : x.isFinite = true) (hz : z.isFinite = true) (hxy : x ≤ y)
    (hyz : y ≤ z) : y.isFinite = true := by
  rw [le_iff] at hxy hyz
  change (unpacked x).isFinite = true at hx
  change (unpacked z).isFinite = true at hz
  change (unpacked y).isFinite = true
  obtain ⟨o, ho, hle⟩ := hxy
  obtain ⟨o', ho', hle'⟩ := hyz
  cases hy : unpacked y with
  | zero => rfl
  | finite => rfl
  | notANumber =>
      rw [hy, compare_eq_none_iff.mpr (.inr rfl)] at ho
      cases ho
  | infinity s =>
      rw [hy] at ho ho'
      cases s with
      | positive =>
          cases hz' : unpacked z <;> rw [hz'] at ho' hz <;> cases hz <;> cases ho' <;> cases hle'
      | negative =>
          cases hx' : unpacked x <;> rw [hx'] at ho hx <;> cases hx <;> cases ho <;> cases hle

end Finite

end FormulaNet.Binary64

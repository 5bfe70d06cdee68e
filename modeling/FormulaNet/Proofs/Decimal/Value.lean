import FormulaNet.Decimal.Binary64
import Mathlib

/-!
# The exact value of a double

A finite double is a rational number, and negation is exact.  The bits of a double are a sign, an exponent
field and a fraction field.  Negation changes the sign alone, but for the values that are no numbers: their
exponent field is all ones.
-/

namespace FormulaNet.Binary64

open Float.Model (Format)
open Float.Model.UnpackedFloat

/-- The rational number that a finite double is. -/
def value : Binary64 → ℚ
  | undefined | infinite _ => 0
  | finite negative mantissa exponent => (if negative then -1 else 1) * mantissa * 2 ^ exponent

/-- A double by its fields. -/
def ofFields (negative : Bool) (field fraction : Nat) : Binary64 :=
  if field = 2047 then if fraction = 0 then .infinite negative else .undefined
  else if field = 0 then .finite negative fraction (-1074)
  else .finite negative (2 ^ 52 + fraction) ((field : Int) - 1075)

theorem value_finite_not (negative : Bool) (mantissa : Nat) (exponent : Int) :
    (finite (!negative) mantissa exponent).value = -(finite negative mantissa exponent).value := by
  cases negative <;> simp [value]

theorem value_ofFields_not (negative : Bool) (field fraction : Nat) :
    (ofFields (!negative) field fraction).value = -(ofFields negative field fraction).value := by
  unfold ofFields
  split
  · split <;> exact neg_zero.symm
  · split <;> exact value_finite_not _ _ _

theorem value_ofFields_ones (negative : Bool) (fraction : Nat) :
    (ofFields negative 2047 fraction).value = 0 := by
  rw [ofFields, if_pos rfl]
  split <;> rfl

/-! ## Fields -/

section Fields

variable (b : BitVec Format.binary64.numBits)

theorem toNat_unpackMantissa : (unpackMantissa b).toNat = b.toNat % 2 ^ 52 := by
  simp [unpackMantissa]

theorem toNat_unpackExponent : (unpackExponent b).toNat = b.toNat / 2 ^ 52 % 2 ^ 11 := by
  simp [unpackExponent, BitVec.extractLsb_toNat, Nat.shiftRight_eq_div_pow]

theorem toNat_unpackSign : (unpackSign b).toNat = b.toNat / 2 ^ 63 := by
  have hlt : b.toNat < 2 ^ 64 := b.isLt
  have hbit : b.toNat / 2 ^ 63 < 2 := by omega
  simpa [unpackSign, BitVec.extractLsb_toNat, Nat.shiftRight_eq_div_pow] using Nat.mod_eq_of_lt hbit

theorem unpackSign_packComponents {spec : Format} {s : Sign} {e : BitVec spec.exponentBits}
    {m : BitVec spec.mantissaBitsWithoutImplicit} : unpackSign (packComponents spec s e m) = s.toBitVec := by
  refine BitVec.eq_of_getLsbD_eq fun i hi ↦ ?_
  obtain rfl : i = 0 := by omega
  simp [unpackSign, packComponents, BitVec.getLsbD_append, BitVec.getElem_append]

theorem toBitVec_neg_ofBitVec (s : BitVec 1) : (-Sign.ofBitVec s).toBitVec = ~~~s := by
  revert s
  decide

theorem not_beq_one (s : BitVec 1) : (~~~s == 1#1) = !(s == 1#1) := by
  revert s
  decide

theorem unpackExponent_neg_of_ones (h : unpackExponent b = -1#11) :
    unpackExponent (pack .binary64 (unpack .binary64 b).neg) = -1#11 := by
  unfold unpack
  rw [if_pos h]
  split
  · exact unpackExponent_packComponents
  · exact unpackExponent_packComponents

theorem pack_subnormal {s : Sign} {m : Nat} (hm : 0 < m) (hlt : m < 2 ^ 52) :
    pack .binary64 (.finite s m (-1074) hm) = packComponents .binary64 s 0#11 (BitVec.ofNat 52 m) := by
  have hlog : m.log2 < 52 := (Nat.log2_lt (Nat.ne_of_gt hm)).mpr hlt
  have hmantissa : ¬m.log2 + 1 = Format.binary64.mantissaBits := by
    change ¬m.log2 + 1 = 53
    omega
  rw [pack]
  exact (if_neg (by decide)).trans (if_neg hmantissa)

theorem pack_normal {s : Sign} {m field : Nat} {e : Int} (hm : 0 < m) (hlow : 2 ^ 52 ≤ m)
    (hlt : m < 2 ^ 53) (hfield : field < 2047) (he : e = (field : Int) - 1075) :
    pack .binary64 (.finite s m e hm) =
      packComponents .binary64 s (BitVec.ofNat 11 field) (BitVec.ofNat 52 m) := by
  have hlog : m.log2 < 53 := (Nat.log2_lt (Nat.ne_of_gt hm)).mpr hlt
  have hlog' : 52 ≤ m.log2 := (Nat.le_log2 (Nat.ne_of_gt hm)).mpr hlow
  have hmantissa : m.log2 + 1 = Format.binary64.mantissaBits := by
    change m.log2 + 1 = 53
    omega
  have hbiased : (e + Format.binary64.exponentBias +
      Format.binary64.mantissaBitsWithoutImplicit).toNat = field := by
    change (e + 1023 + 52).toNat = field
    omega
  have hfits : ¬2 ^ Format.binary64.exponentBits ≤ field + 1 := by
    change ¬2 ^ 11 ≤ field + 1
    omega
  rw [pack]
  simp only [hbiased]
  rw [if_neg hfits, if_pos hmantissa]

/-- The bits of a negation, but for the values that are no numbers. -/
theorem pack_neg_unpack (h : unpackExponent b ≠ -1#11) :
    pack .binary64 (unpack .binary64 b).neg =
      packComponents .binary64 (-Sign.ofBitVec (unpackSign b)) (unpackExponent b) (unpackMantissa b) := by
  have hfield : (unpackExponent b).toNat < 2047 := by
    have hlt : (unpackExponent b).toNat < 2 ^ 11 := (unpackExponent b).isLt
    have hne : (unpackExponent b).toNat ≠ 2047 := fun heq ↦ h (BitVec.eq_of_toNat_eq heq)
    omega
  have hfraction : (unpackMantissa b).toNat < 2 ^ 52 := (unpackMantissa b).isLt
  unfold unpack
  rw [if_neg h]
  split
  · next hzero =>
    rw [hzero]
    split
    · next hnone =>
      rw [hnone]
      rfl
    · next hsome =>
      have hpos : 0 < (unpackMantissa b).toNat :=
        Nat.pos_of_ne_zero fun hnone ↦ hsome (BitVec.eq_of_toNat_eq hnone)
      have hpack := pack_subnormal (s := -Sign.ofBitVec (unpackSign b)) hpos hfraction
      rw [BitVec.ofNat_toNat, BitVec.setWidth_eq] at hpack
      exact hpack
  · next hzero =>
    have hmantissa : (1#1 ++ unpackMantissa b).toNat = 2 ^ 52 + (unpackMantissa b).toNat := by
      rw [BitVec.toNat_append, ← Nat.shiftLeft_add_eq_or_of_lt hfraction]
      rfl
    have hpack := pack_normal (s := -Sign.ofBitVec (unpackSign b)) (m := (1#1 ++ unpackMantissa b).toNat)
      (by omega) (by omega) (by omega) hfield rfl
    have hlow : BitVec.ofNat 52 (1#1 ++ unpackMantissa b).toNat = unpackMantissa b := by
      refine BitVec.eq_of_toNat_eq ?_
      rw [BitVec.toNat_ofNat, hmantissa]
      omega
    rw [hlow, BitVec.ofNat_toNat, BitVec.setWidth_eq] at hpack
    refine Eq.trans ?_ hpack
    rfl

end Fields

/-- The bits of a double. -/
def bits (x : Float) : BitVec Format.binary64.numBits := x.toBits.toBitVec

theorem ofFloat_eq (x : Float) :
    ofFloat x = ofFields (unpackSign (bits x) == 1#1) (unpackExponent (bits x)).toNat
      (unpackMantissa (bits x)).toNat := by
  have hsign : (unpackSign (bits x) == 1#1) = (x.toBits.toNat / 2 ^ 63 == 1) := by
    rw [Bool.eq_iff_iff, beq_iff_eq, beq_iff_eq, ← BitVec.toNat_inj, toNat_unpackSign]
    rfl
  unfold ofFloat ofFields
  rw [hsign, toNat_unpackExponent, toNat_unpackMantissa]
  rfl

theorem bits_neg (x : Float) : bits (-x) = pack .binary64 (unpack .binary64 (bits x)).neg := rfl

/-- **Negation of doubles is exact.** -/
theorem value_ofFloat_neg (x : Float) : (ofFloat (-x)).value = -(ofFloat x).value := by
  rw [ofFloat_eq, ofFloat_eq, bits_neg]
  by_cases h : unpackExponent (bits x) = -1#11
  · rw [unpackExponent_neg_of_ones (bits x) h, h]
    exact (value_ofFields_ones _ _).trans (neg_eq_zero.mpr (value_ofFields_ones _ _)).symm
  · rw [pack_neg_unpack (bits x) h, unpackExponent_packComponents, unpackMantissa_packComponents,
      unpackSign_packComponents, toBitVec_neg_ofBitVec, not_beq_one]
    exact value_ofFields_not _ _ _

end FormulaNet.Binary64

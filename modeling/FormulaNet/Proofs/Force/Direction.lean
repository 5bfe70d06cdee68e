import FormulaNet.Force.Direction
import FormulaNet.Proofs.Decimal.Fixed
import FormulaNet.Proofs.Decimal.Product

/-!
# Directions read back

The words for an angle near an axis name the axis and are read as it.  All other words give the angle to the
horizontal, to a tenth of a degree, and say on which side it lies; but a number comes before all words, so
what is read back is that number, as an angle of the first quadrant.
-/

namespace FormulaNet.Direction

open Binary64 (ofFloat ofDecimal Fits Rounds)

/-! ## Degrees -/

section Degrees

/-- The degrees that directions are compared with are exact. -/
theorem value_landmarks : (ofFloat 0).value = 0 ∧ (ofFloat 5).value = 5 ∧ (ofFloat 90).value = 90 ∧
    (ofFloat 180).value = 180 := by
  decide +kernel

theorem value_right : (ofFloat 90).value = 90 := value_landmarks.2.2.1

theorem value_straight : (ofFloat 180).value = 180 := value_landmarks.2.2.2

/-- Whether a sum is within five degrees of nothing is not changed by rounding: small sums are exact, and
no large one is rounded to a small one. -/
theorem abs_lt_five_iff {q r : ℚ} {z : Float} (hz : z.isFinite = true) (hrounds : Rounds (q + r) (ofFloat z).value)
    (hq : Fits q) (hr : Fits r) (hlarge : 10 ≤ |r|) : z.abs < 5 ↔ |q + r| < 5 := by
  have hfive : Fits (5 : ℤ) := Binary64.fits_intCast (by decide)
  rw [Binary64.lt_iff_value (Binary64.isFinite_abs hz) rfl, Binary64.value_ofFloat_abs, value_landmarks.2.1]
  constructor
  · intro hlt
    rw [abs_lt] at hlt ⊢
    constructor
    · by_contra hle
      have hneg := (hrounds _ hfive.neg).2
      push_cast at hneg
      linarith [hneg (not_lt.mp hle)]
    · by_contra hle
      have hpos := (hrounds _ hfive).1
      push_cast at hpos
      linarith [hpos (not_lt.mp hle)]
  · intro hlt
    have hsplit : |r| ≤ |q + r| + |q| := by
      have h := abs_sub (q + r) q
      rwa [add_sub_cancel_left] at h
    rwa [hrounds.eq_of_fits (hq.add hr (by linarith) (by linarith))]

variable {d : Float}

/-- Doubles of at most 180 degrees: no sum with a right or a straight angle overflows. -/
theorem abs_add_lt {x c : ℚ} (hx : |x| ≤ 180) (hc : |c| ≤ 180) : |x + c| < 2 ^ 1000 :=
  calc
    |x + c| ≤ |x| + |c| := abs_add_le x c
    _ < 2 ^ 9 := by linarith
    _ ≤ 2 ^ 1000 := pow_le_pow_right₀ one_le_two (by decide)

theorem abs_sub_lt_five_iff {c : Float} (hd : d.isFinite = true) (hc : c.isFinite = true)
    (hle : |(ofFloat d).value| ≤ 180) (hlow : 10 ≤ |(ofFloat c).value|) (hhigh : |(ofFloat c).value| ≤ 180) :
    (d - c).abs < 5 ↔ |(ofFloat d).value - (ofFloat c).value| < 5 := by
  rw [← abs_neg] at hlow hhigh
  have hlt := abs_add_lt hle hhigh
  rw [← sub_eq_add_neg] at hlt
  obtain ⟨hfinite, hrounds⟩ := Binary64.isFinite_and_rounds_sub hd hc hlt
  rw [sub_eq_add_neg] at hrounds ⊢
  exact abs_lt_five_iff hfinite hrounds (Binary64.fits_value d) (Binary64.fits_value c).neg hlow

theorem abs_add_lt_five_iff {c : Float} (hd : d.isFinite = true) (hc : c.isFinite = true)
    (hle : |(ofFloat d).value| ≤ 180) (hlow : 10 ≤ |(ofFloat c).value|) (hhigh : |(ofFloat c).value| ≤ 180) :
    (d + c).abs < 5 ↔ |(ofFloat d).value + (ofFloat c).value| < 5 := by
  obtain ⟨hfinite, hrounds⟩ := Binary64.isFinite_and_rounds_add hd hc (abs_add_lt hle hhigh)
  exact abs_lt_five_iff hfinite hrounds (Binary64.fits_value d) (Binary64.fits_value c) hlow

/-- Beyond the right angle nothing is lost when the angle to the horizontal is calculated. -/
theorem value_straight_sub (hd : d.isFinite = true) (hlow : 90 ≤ (ofFloat d).value) (hhigh : (ofFloat d).value ≤ 180) :
    (ofFloat (180 - d)).value = 180 - (ofFloat d).value := by
  have habs : |(ofFloat d).value| ≤ 180 := abs_le.mpr ⟨by linarith, hhigh⟩
  have hlt : |(ofFloat 180).value - (ofFloat d).value| < 2 ^ 1000 := by
    rw [value_straight, sub_eq_add_neg]
    exact abs_add_lt (by norm_num) (by rwa [abs_neg])
  have hrounds := (Binary64.isFinite_and_rounds_sub rfl hd hlt).2
  have hfits : Fits ((ofFloat 180).value - (ofFloat d).value) := by
    have h := (Binary64.fits_value 180).add (Binary64.fits_value d).neg
    rw [← sub_eq_add_neg, value_straight, abs_neg, abs_of_nonneg (sub_nonneg.mpr hhigh),
      abs_of_nonneg (le_trans (by norm_num) hlow), abs_of_nonneg (by norm_num)] at h
    rw [value_straight]
    exact h (by linarith) (by linarith)
  rw [hrounds.eq_of_fits hfits, value_straight]

theorem value_add_straight (hd : d.isFinite = true) (hlow : -180 ≤ (ofFloat d).value)
    (hhigh : (ofFloat d).value ≤ -90) : (ofFloat (d + 180)).value = (ofFloat d).value + 180 := by
  have habs : |(ofFloat d).value| ≤ 180 := abs_le.mpr ⟨hlow, by linarith⟩
  have hlt : |(ofFloat d).value + (ofFloat 180).value| < 2 ^ 1000 := by
    rw [value_straight]
    exact abs_add_lt habs (by norm_num)
  have hrounds := (Binary64.isFinite_and_rounds_add hd rfl hlt).2
  have hfits : Fits ((ofFloat d).value + (ofFloat 180).value) := by
    have h := (Binary64.fits_value d).add (Binary64.fits_value 180)
    rw [value_straight, abs_of_nonneg (by linarith), abs_of_nonpos (by linarith), abs_of_nonneg (by norm_num)] at h
    rw [value_straight]
    exact h (by linarith) (by linarith)
  rw [hrounds.eq_of_fits hfits, value_straight]

end Degrees

/-! ## The words -/

section Words

/-- The axis within five degrees of an angle in degrees. -/
def axis? (x : ℚ) : Option Float :=
  if |x| < 5 then some 0
  else if |x - 90| < 5 then some halfPi
  else if |x + 90| < 5 then some (-halfPi)
  else if |(|x| - 180)| < 5 then some pi
  else none

/-- The angle between a direction and the horizontal, in degrees. -/
def incline (x : ℚ) : ℚ := if |x| ≤ 90 then |x| else 180 - |x|

theorem axis?_eq_none_iff {x : ℚ} :
    axis? x = none ↔ 5 ≤ |x| ∧ 5 ≤ |x - 90| ∧ 5 ≤ |x + 90| ∧ 5 ≤ |(|x| - 180)| := by
  unfold axis?
  split_ifs <;> simp_all

/-- Where no axis is near, the angle to the horizontal is neither small nor almost right. -/
theorem incline_bounds {x : ℚ} (hx : |x| ≤ 180) (h : axis? x = none) : 5 ≤ incline x ∧ incline x ≤ 85 := by
  obtain ⟨hright, hup, hdown, hleft⟩ := axis?_eq_none_iff.mp h
  have hleft' : |x| ≤ 175 := by
    rw [abs_of_nonpos (by linarith)] at hleft
    linarith
  have hquarter : |x| ≤ 85 ∨ 95 ≤ |x| := by
    rcases abs_cases x with ⟨hx, -⟩ | ⟨hx, -⟩
    · rw [hx]
      exact (le_abs.mp hup).symm.imp (by intro; linarith) (by intro; linarith)
    · rw [hx]
      exact (le_abs.mp hdown).imp (by intro; linarith) (by intro; linarith)
  unfold incline
  split
  · exact ⟨hright, hquarter.resolve_right (by linarith)⟩
  · have hlow := hquarter.resolve_left (by linarith)
    constructor <;> linarith

/-- What is written after the number. -/
def sides : List String :=
  ["° above horizontal", "° above horizontal, to the left", "° below horizontal",
    "° below horizontal, to the left"]

theorem resolve_of_or_eq {text : String} {a : Float} (h : (explicit? text).or (keyword? text) = some a)
    (subType : Option String) : resolve (some text) subType = a := by
  rw [resolve, Option.bind_some, h, Option.getD_some]

section Describe

variable {angle : Float}

/-- Which axis is near is decided as it is for exact numbers. -/
theorem near_iff (hfinite : (toDegrees angle).isFinite = true)
    (hle : |(ofFloat (toDegrees angle)).value| ≤ 180) :
    ((toDegrees angle).abs < 5 ↔ |(ofFloat (toDegrees angle)).value| < 5) ∧
      ((toDegrees angle - 90).abs < 5 ↔ |(ofFloat (toDegrees angle)).value - 90| < 5) ∧
      ((toDegrees angle + 90).abs < 5 ↔ |(ofFloat (toDegrees angle)).value + 90| < 5) ∧
      (((toDegrees angle).abs - 180).abs < 5 ↔ |(|(ofFloat (toDegrees angle)).value| - 180)| < 5) := by
  have habs := Binary64.value_ofFloat_abs (toDegrees angle)
  have hup := abs_sub_lt_five_iff (c := 90) hfinite rfl hle (by rw [value_right]; norm_num)
    (by rw [value_right]; norm_num)
  have hdown := abs_add_lt_five_iff (c := 90) hfinite rfl hle (by rw [value_right]; norm_num)
    (by rw [value_right]; norm_num)
  have hleft := abs_sub_lt_five_iff (c := 180) (Binary64.isFinite_abs hfinite) rfl (by rwa [habs, abs_abs])
    (by rw [value_straight]; norm_num) (by rw [value_straight]; norm_num)
  rw [value_right] at hup hdown
  rw [value_straight, habs] at hleft
  refine ⟨?_, hup, hdown, hleft⟩
  rw [Binary64.lt_iff_value (Binary64.isFinite_abs hfinite) rfl, habs, value_landmarks.2.1]

/-- The name of an axis is written near it, and it is the one that is read. -/
theorem resolve_describe_of_axis? {a : Float} (hfinite : (toDegrees angle).isFinite = true)
    (hle : |(ofFloat (toDegrees angle)).value| ≤ 180) (h : axis? (ofFloat (toDegrees angle)).value = some a)
    (subType : Option String) : resolve (some (describe angle)) subType = a := by
  obtain ⟨hright, hup, hdown, hleft⟩ := near_iff hfinite hle
  refine resolve_of_or_eq ?_ subType
  rw [← h]
  unfold describe axis? at *
  simp only [hright, hup, hdown, hleft] at h ⊢
  split_ifs at h ⊢
  · decide +kernel
  · decide +kernel
  · decide +kernel
  · decide +kernel

theorem between_iff {d low high : Float} (hd : d.isFinite = true) (hlow : low.isFinite = true)
    (hhigh : high.isFinite = true) : (decide (d > low) && decide (d < high)) = true ↔
      (ofFloat low).value < (ofFloat d).value ∧ (ofFloat d).value < (ofFloat high).value := by
  rw [Bool.and_eq_true, decide_eq_true_iff, decide_eq_true_iff, gt_iff_lt, Binary64.lt_iff_value hlow hd,
    Binary64.lt_iff_value hd hhigh]

/-- Away from the axes the angle to the horizontal is written, and the side. -/
theorem exists_describe (hfinite : (toDegrees angle).isFinite = true)
    (hle : |(ofFloat (toDegrees angle)).value| ≤ 180) (h : axis? (ofFloat (toDegrees angle)).value = none) :
    ∃ y : Float, ∃ side ∈ sides, describe angle = Decimal.fixed 1 y ++ side ∧
      (ofFloat y).value = incline (ofFloat (toDegrees angle)).value := by
  have hnear := near_iff hfinite hle
  obtain ⟨hright, hup, hdown, hleft⟩ := axis?_eq_none_iff.mp h
  unfold describe
  generalize toDegrees angle = d at *
  have hminus : (ofFloat (-90)).value = -90 := by rw [Binary64.value_ofFloat_neg, value_right]
  have hbounds := abs_le.mp hle
  dsimp only
  rw [if_neg (hnear.1.not.mpr hright.not_gt), if_neg (hnear.2.1.not.mpr hup.not_gt),
    if_neg (hnear.2.2.1.not.mpr hdown.not_gt), if_neg (hnear.2.2.2.not.mpr hleft.not_gt),
    Bool.and_comm (decide (d < 0))]
  simp only [between_iff hfinite (rfl : Float.isFinite 0 = true) (rfl : Float.isFinite 90 = true),
    between_iff hfinite (rfl : Float.isFinite 90 = true) (rfl : Float.isFinite 180 = true),
    between_iff hfinite (rfl : Float.isFinite (-90) = true) (rfl : Float.isFinite 0 = true), value_landmarks.1, hminus,
    value_right, value_straight]
  generalize hx : (ofFloat d).value = x at *
  split_ifs with hfirst hsecond hfourth
  · refine ⟨d, _, List.mem_cons_self, rfl, ?_⟩
    rw [incline, abs_of_pos hfirst.1, if_pos hfirst.2.le, hx]
  · refine ⟨180 - d, "° above horizontal, to the left", by simp [sides], rfl, ?_⟩
    rw [incline, abs_of_pos (by linarith), if_neg hsecond.1.not_ge,
      value_straight_sub hfinite (hx ▸ hsecond.1.le) (hx ▸ hsecond.2.le), hx]
  · refine ⟨-d, "° below horizontal", by simp [sides], rfl, ?_⟩
    rw [incline, abs_of_neg hfourth.2, if_pos (by linarith), Binary64.value_ofFloat_neg, hx]
  · have hthird : x ≤ -90 := by
      by_contra hlt
      have hzero : 0 ≤ x := not_lt.mp fun hneg ↦ hfourth ⟨not_le.mp hlt, hneg⟩
      rw [abs_of_nonneg hzero] at hright hleft
      have hbeyond : 90 ≤ x := not_lt.mp fun hless ↦ hfirst ⟨by linarith, hless⟩
      rw [abs_of_nonneg (by linarith)] at hup
      have hstraight : 180 ≤ x := not_lt.mp fun hless ↦ hsecond ⟨by linarith, hless⟩
      rw [abs_of_nonneg (by linarith)] at hleft
      linarith
    refine ⟨d + 180, "° below horizontal, to the left", by simp [sides], rfl, ?_⟩
    rw [incline, abs_of_nonpos (by linarith), value_add_straight hfinite (hx ▸ hbounds.1) (hx ▸ hthird), hx]
    split <;> linarith

end Describe

end Words

/-! ## Numbers read back -/

section Numbers

variable {cs numeral : List Char} {words : String}

theorem lower_of_inNumeral {c : Char} (h : inNumeral c = true) : lower c = [c] := by
  rw [inNumeral, Bool.or_eq_true, decide_eq_true_iff] at h
  have hlower : c.toLower = c := h.elim Numeral.toLower_of_isDigit fun hpoint ↦ hpoint ▸ rfl
  unfold lower
  split
  · exact absurd h (by decide)
  · exact absurd h (by decide)
  · rw [hlower]

theorem lowered_append (s t : String) : lowered (s ++ t) = lowered s ++ lowered t := by
  simp [lowered]

theorem lowered_of_inNumeral (h : cs.all inNumeral = true) : lowered (String.ofList cs) = cs := by
  rw [lowered, String.toList_ofList]
  induction cs with
  | nil => rfl
  | cons c cs ih =>
      rw [List.all_cons, Bool.and_eq_true] at h
      rw [List.flatMap_cons, lower_of_inNumeral h.1, ih h.2]
      rfl

/-- A number in front of the sign for degrees is an angle in degrees. -/
theorem explicit?_degrees {c : Char} {n : Numeral} {rest : List Char} (hdigit : c.isDigit = true)
    (hall : (c :: cs).all inNumeral = true) (hread : Numeral.read? (c :: cs) = some n)
    (hwords : lowered words = '°' :: rest) :
    explicit? (String.ofList (c :: cs) ++ words) = some (toRadians n.toFloat) := by
  have hnumeral : firstNumeral? (c :: cs ++ '°' :: rest) = some (c :: cs, '°' :: rest) := by
    have hstop : inNumeral '°' = false := by decide
    have hmem : ∀ c' ∈ c :: cs, inNumeral c' = true := List.all_eq_true.mp hall
    unfold firstNumeral?
    rw [List.cons_append, List.takeWhile_cons_of_neg (by simp [hdigit]),
      List.dropWhile_cons_of_neg (by simp [hdigit])]
    change some ([] ++ (c :: cs ++ '°' :: rest).takeWhile inNumeral, (c :: cs ++ '°' :: rest).dropWhile inNumeral) = _
    rw [List.takeWhile_append_of_pos hmem, List.dropWhile_append_of_pos hmem,
      List.takeWhile_cons_of_neg (by simp [hstop]), List.dropWhile_cons_of_neg (by simp [hstop]), List.append_nil,
      List.nil_append]
  have hrad : ['r', 'a', 'd'].isPrefixOf (Text.trimStart ('°' :: rest)) = false := by
    have hblank : ¬Text.isBlank '°' = true := by decide
    rw [Text.trimStart, List.dropWhile_cons_of_neg hblank]
    rfl
  rw [explicit?, lowered_append, lowered_of_inNumeral hall, hwords, hnumeral]
  simp only [Option.bind_eq_bind, Option.bind_some, hread, hrad, Bool.false_eq_true, if_false]

theorem head?_lowered_of_mem_sides : ∀ side ∈ sides, (lowered side).head? = some '°' := by
  decide +kernel

/-- The angle that a number of tenths of a degree with a side gives, whatever the side and the kind of
force. -/
theorem resolve_tenths {side : String} (hside : side ∈ sides) (n : ℕ) (subType : Option String) :
    resolve (some (String.ofList (Decimal.fixedText 1 n) ++ side)) subType = toRadians (ofDecimal n (-1)) := by
  obtain ⟨rest, hrest⟩ := List.head?_eq_some_iff.mp (head?_lowered_of_mem_sides side hside)
  have hread := Decimal.read?_fixedText one_pos n
  obtain ⟨whole, fraction, htext, hwhole, hfraction, -⟩ := Decimal.exists_fixedText one_pos n
  obtain ⟨c, cs, rfl, hc, hcs⟩ := Numeral.isDigits_iff.mp hwhole
  have hall : (c :: cs ++ '.' :: fraction).all inNumeral = true := by
    have hdigits : ∀ ds : List Char, ds.all Char.isDigit = true → ds.all inNumeral = true := fun ds hds ↦
      List.all_eq_true.mpr fun d hd ↦ by simp [inNumeral, List.all_eq_true.mp hds d hd]
    rw [List.all_append, List.all_cons, List.all_cons, hdigits cs hcs, hdigits fraction hfraction]
    simp [inNumeral, hc]
  rw [htext] at hread ⊢
  rw [List.cons_append] at hall hread ⊢
  refine resolve_of_or_eq ?_ subType
  rw [explicit?_degrees hc hall hread hrest, Option.some_or]
  rfl

/-- Bounds of a degree and of a right angle, in radians. -/
theorem radians_bounds : ((pi / 180).isFinite = true ∧ 1 / 58 ≤ (ofFloat (pi / 180)).value ∧
    (ofFloat (pi / 180)).value ≤ 1 / 57) ∧ halfPi.isFinite = true ∧ 3 / 2 < (ofFloat halfPi).value := by
  decide +kernel

/-- From 5 to 85 degrees, to a tenth of a degree, is within the first quadrant. -/
theorem toRadians_tenths {n : ℕ} (hlow : 50 ≤ n) (hhigh : n ≤ 850) :
    0 < toRadians (ofDecimal n (-1)) ∧ toRadians (ofDecimal n (-1)) < halfPi := by
  obtain ⟨⟨hdegree, hdegreeLow, hdegreeHigh⟩, hhalf, hhalfLow⟩ := radians_bounds
  have hread : (ofDecimal n (-1)).isFinite = true ∧ Rounds (n / 10 ^ 1) (ofFloat (ofDecimal n (-1))).value :=
    Binary64.isFinite_and_rounds_ofDecimal (by omega) (by omega) one_pos (by decide)
  have hlow' : (50 : ℚ) ≤ n := by exact_mod_cast hlow
  have hhigh' : (n : ℚ) ≤ 850 := by exact_mod_cast hhigh
  obtain ⟨hdegreesLow, hdegreesHigh⟩ := hread.2.bounds (c := 5) (d := 85)
    ⟨5, 0, by decide, by decide, by norm_num⟩ ⟨85, 0, by decide, by decide, by norm_num⟩
    (by constructor <;> linarith)
  have hproduct : 1 / 16 ≤ (ofFloat (ofDecimal n (-1))).value * (ofFloat (pi / 180)).value ∧
      (ofFloat (ofDecimal n (-1))).value * (ofFloat (pi / 180)).value ≤ 3 / 2 := by
    constructor
    · calc
        (1 / 16 : ℚ) ≤ 5 * (1 / 58) := by norm_num
        _ ≤ (ofFloat (ofDecimal n (-1))).value * (ofFloat (pi / 180)).value := by gcongr
    · calc
        (ofFloat (ofDecimal n (-1))).value * (ofFloat (pi / 180)).value ≤ 85 * (1 / 57) := by gcongr
        _ ≤ 3 / 2 := by norm_num
  have hlt : |(ofFloat (ofDecimal n (-1))).value * (ofFloat (pi / 180)).value| < 2 ^ 1000 :=
    calc
      |(ofFloat (ofDecimal n (-1))).value * (ofFloat (pi / 180)).value| ≤ 3 / 2 :=
        abs_le.mpr ⟨by linarith [hproduct.1], hproduct.2⟩
      _ < 2 ^ 1 := by norm_num
      _ ≤ 2 ^ 1000 := pow_le_pow_right₀ one_le_two (by decide)
  obtain ⟨hfinite, hrounds⟩ := Binary64.isFinite_and_rounds_mul hread.1 hdegree hlt
  obtain ⟨hbelow, habove⟩ := hrounds.bounds (c := 1 / 16) (d := 3 / 2)
    ⟨1, -4, by decide, by decide, by norm_num⟩ ⟨3, -1, by decide, by decide, by norm_num⟩ hproduct
  rw [toRadians, Binary64.lt_iff_value rfl hfinite, Binary64.lt_iff_value hfinite hhalf, value_landmarks.1]
  exact ⟨lt_of_lt_of_le (by norm_num) hbelow, habove.trans_lt hhalfLow⟩

end Numbers

/-- **Within five degrees of an axis the words for an angle are read as that axis.  All others are read as
the angle to the horizontal, to a tenth of a degree: that is an angle of the first quadrant, whichever
quadrant was described.** -/
theorem resolve_describe {angle : Float} (hlow : -180 ≤ toDegrees angle) (hhigh : toDegrees angle ≤ 180)
    (subType : Option String) :
    (∀ a, axis? (ofFloat (toDegrees angle)).value = some a → resolve (some (describe angle)) subType = a) ∧
      (axis? (ofFloat (toDegrees angle)).value = none → ∃ tenths : ℕ,
        |tenths / 10 - incline (ofFloat (toDegrees angle)).value| ≤ 1 / 20 ∧
          resolve (some (describe angle)) subType = toRadians (ofDecimal tenths (-1)) ∧
          0 < resolve (some (describe angle)) subType ∧ resolve (some (describe angle)) subType < halfPi) := by
  have hfinite : (toDegrees angle).isFinite = true := Binary64.isFinite_of_le_of_le rfl rfl hlow hhigh
  have hle : |(ofFloat (toDegrees angle)).value| ≤ 180 := by
    rw [Binary64.le_iff_value rfl hfinite, Binary64.value_ofFloat_neg, value_straight] at hlow
    rw [Binary64.le_iff_value hfinite rfl, value_straight] at hhigh
    exact abs_le.mpr ⟨hlow, hhigh⟩
  refine ⟨fun a h ↦ resolve_describe_of_axis? hfinite hle h subType, fun h ↦ ?_⟩
  obtain ⟨y, side, hside, htext, hy⟩ := exists_describe hfinite hle h
  obtain ⟨hsmall, hlarge⟩ := hy ▸ incline_bounds hle h
  obtain ⟨tenths, hfixed, htenths⟩ := Decimal.exists_fixed (lt_of_lt_of_le (by norm_num) hsmall) 1
  rw [pow_one, abs_le] at htenths
  have hresolve : resolve (some (describe angle)) subType = toRadians (ofDecimal tenths (-1)) := by
    rw [htext, hfixed, resolve_tenths hside]
  have hlow : 50 ≤ tenths := by
    have hlt : (49 : ℚ) < tenths := by linarith
    exact_mod_cast hlt
  have hhigh : tenths ≤ 850 := by
    have hlt : (tenths : ℚ) < 851 := by linarith
    exact Nat.le_of_lt_succ (by exact_mod_cast hlt)
  rw [hresolve, ← hy]
  exact ⟨tenths, abs_le.mpr ⟨by linarith, by linarith⟩, rfl, toRadians_tenths hlow hhigh⟩

/-- The words for an angle of 30 degrees. -/
theorem resolve_describe_thirty : -180 ≤ toDegrees (toRadians 30) ∧ toDegrees (toRadians 30) ≤ 180 ∧
    ∃ tenths : ℕ, resolve (some (describe (toRadians 30))) none = toRadians (ofDecimal tenths (-1)) := by
  have hlow : -180 ≤ toDegrees (toRadians 30) := by decide +kernel
  have hhigh : toDegrees (toRadians 30) ≤ 180 := by decide +kernel
  have hnone : axis? (ofFloat (toDegrees (toRadians 30))).value = none := by decide +kernel
  obtain ⟨tenths, -, hresolve, -⟩ := (resolve_describe hlow hhigh none).2 hnone
  exact ⟨hlow, hhigh, tenths, hresolve⟩

/-- Thirty degrees below the horizontal are read as thirty degrees above it. -/
theorem resolve_describe_below : -180 ≤ toDegrees (toRadians (-30)) ∧ toDegrees (toRadians (-30)) ≤ 180 ∧
    toRadians (-30) < 0 ∧ axis? (ofFloat (toDegrees (toRadians (-30)))).value = none ∧
      describe (toRadians (-30)) = "30.0° below horizontal" ∧
        resolve (some "30.0° below horizontal") none = toRadians 30 ∧ 0 < toRadians 30 := by
  decide +kernel

end FormulaNet.Direction

import FormulaNet.Decimal.Layout
import FormulaNet.Proofs.Decimal.Literal
import FormulaNet.Proofs.Decimal.Value

/-!
# Numbers with a fixed count of places

What is written with a fixed count of digits after the point is read back as a decimal of that many places,
and it is within half a unit of the last place of the double written.
-/

namespace FormulaNet

/-! ## Reading -/

namespace Numeral

variable {whole fraction : List Char}

theorem ofDigits_eq (cs : List Char) : ofDigits cs = Nat.ofDigitChars 10 cs 0 :=
  Nat.ofDigitChars_eq_foldl.symm

/-- Zeros in front do not count. -/
theorem ofDigits_replicate_append (k : ℕ) (cs : List Char) :
    ofDigits (List.replicate k '0' ++ cs) = ofDigits cs := by
  rw [ofDigits_eq, ofDigits_eq, Nat.ofDigitChars_append, Nat.ofDigitChars_replicate_zero, mul_zero]

theorem ofDigits_toDigits (n : ℕ) : ofDigits (Nat.toDigits 10 n) = n := by
  rw [ofDigits_eq, Nat.ofDigitChars_ten_toDigits]

/-- Digits, a point and digits are read as a decimal of so many places. -/
theorem read?_point (hwhole : isDigits whole = true) (hfraction : fraction.all Char.isDigit = true) :
    read? (whole ++ '.' :: fraction) =
      some (.decimal false (ofDigits (whole ++ fraction)) (-fraction.length)) := by
  obtain ⟨c, cs, rfl, hc, hcs⟩ := isDigits_iff.mp hwhole
  have hdigits : (c :: cs).all Char.isDigit = true := by rw [List.all_cons, hc, hcs, Bool.and_self]
  have hstarts : StartsLiteral (c :: cs ++ '.' :: fraction) := ⟨c, rfl, .inl hc⟩
  have hmark : ∀ c ∈ ('.' :: fraction).head?, c.isDigit = false := by
    rintro c ⟨rfl⟩
    rfl
  have hnone : ∀ c ∈ ([] : List Char).head?, c.isDigit = false := nofun
  have hpoint := takeWhile_append_of_endsMantissa hdigits hmark
  have hend := takeWhile_append_of_endsMantissa hfraction hnone
  rw [List.append_nil] at hend
  rw [read?_of_startsLiteral hstarts, readUnsigned?, splitMantissa]
  simp only [hpoint, hend, List.isEmpty_cons, Bool.false_and, Bool.false_eq_true, if_false, readPower?_nil,
    Option.map_some, zero_sub]

end Numeral

/-! ## Rounding -/

namespace Binary64

theorem abs_roundDiv_sub_le (n : ℕ) {d : ℕ} (hd : 0 < d) : |(roundDiv n d : ℚ) - n / d| ≤ 1 / 2 := by
  have hd' : (0 : ℚ) < d := by exact_mod_cast hd
  have hsplit : (n : ℚ) / d = (n / d : ℕ) + (n % d : ℕ) / d := by
    rw [eq_comm, ← eq_sub_iff_add_eq', div_eq_iff hd'.ne', sub_mul, div_mul_cancel₀ _ hd'.ne']
    have hmod : ((n / d : ℕ) : ℚ) * d + (n % d : ℕ) = n := by exact_mod_cast Nat.div_add_mod' n d
    linarith
  have hrest : 2 * ((n % d : ℕ) / d : ℚ) = ((2 * (n % d) : ℕ) : ℚ) / d := by
    push_cast
    ring
  have hlt : ((n % d : ℕ) : ℚ) / d < 1 := by
    rw [div_lt_one hd']
    exact_mod_cast Nat.mod_lt n hd
  unfold roundDiv
  dsimp only
  split
  · next hdown =>
    have hle : ((2 * (n % d) : ℕ) : ℚ) / d ≤ 1 := by
      rw [div_le_one hd']
      exact_mod_cast hdown.elim Nat.le_of_lt fun h ↦ h.1.le
    have hnonneg : (0 : ℚ) ≤ (n % d : ℕ) / d := by positivity
    rw [abs_le]
    constructor <;> linarith
  · next hup =>
    have hge : 1 ≤ ((2 * (n % d) : ℕ) : ℚ) / d := by
      rw [one_le_div hd']
      have hle : d ≤ 2 * (n % d) := not_lt.mp fun h ↦ hup (.inl h)
      exact_mod_cast hle
    push_cast at hge hrest ⊢
    rw [abs_le]
    constructor <;> linarith

theorem twoTo_div_twoTo (e : ℤ) : (Decimal.twoTo e : ℚ) / Decimal.twoTo (-e) = 2 ^ e := by
  unfold Decimal.twoTo
  rcases Int.eq_nat_or_neg e with ⟨n, rfl | rfl⟩ <;> simp

/-- A positive double by its parts. -/
theorem exists_ofFloat_of_pos {x : Float} (h : 0 < (ofFloat x).value) :
    ∃ m e, ofFloat x = .finite false m e ∧ (ofFloat x).value = m * 2 ^ e := by
  cases hx : ofFloat x with
  | undefined =>
      rw [hx] at h
      exact absurd h (lt_irrefl 0)
  | infinite =>
      rw [hx] at h
      exact absurd h (lt_irrefl 0)
  | finite negative m e =>
      cases negative with
      | false => exact ⟨m, e, rfl, by simp [value]⟩
      | true =>
          have hneg : (finite true m e).value = -(m * 2 ^ e) := by simp [value]
          rw [hx, hneg] at h
          exact absurd h (not_lt.mpr (neg_nonpos.mpr (by positivity)))

end Binary64

/-! ## Writing -/

namespace Decimal

/-- The digits of a number with a point before the last places. -/
def fixedText (places n : ℕ) : List Char :=
  let digits := Nat.toDigits 10 n
  withPoint (List.replicate (places + 1 - digits.length) '0' ++ digits)
    (max digits.length (places + 1) - places)

theorem isDigit_of_mem_padded {c : Char} {k n : ℕ} (h : c ∈ List.replicate k '0' ++ Nat.toDigits 10 n) :
    c.isDigit = true := by
  rcases List.mem_append.mp h with h | h
  · obtain rfl := List.eq_of_mem_replicate h
    rfl
  · exact Nat.isDigit_of_mem_toDigits (by decide) (by decide) h

/-- Some digits, a point and as many digits as there are places. -/
theorem exists_fixedText {places : ℕ} (hplaces : 0 < places) (n : ℕ) : ∃ whole fraction,
    fixedText places n = whole ++ '.' :: fraction ∧ Numeral.isDigits whole = true ∧
      fraction.all Char.isDigit = true ∧ fraction.length = places ∧ Numeral.ofDigits (whole ++ fraction) = n := by
  obtain ⟨position, hposition⟩ : ∃ position : ℕ,
      max (Nat.toDigits 10 n).length (places + 1) = position + 1 + places :=
    ⟨max (Nat.toDigits 10 n).length (places + 1) - places - 1, by omega⟩
  generalize hdigits : List.replicate (places + 1 - (Nat.toDigits 10 n).length) '0' ++ Nat.toDigits 10 n = digits
  have hlength : digits.length = position + 1 + places := by
    rw [← hposition, ← hdigits, List.length_append, List.length_replicate]
    omega
  have hmem : ∀ c ∈ digits, c.isDigit = true := fun c hc ↦ isDigit_of_mem_padded (hdigits ▸ hc)
  refine ⟨digits.take (position + 1), digits.drop (position + 1), ?_, ?_, ?_, ?_, ?_⟩
  · have hcast : ((max (Nat.toDigits 10 n).length (places + 1) : ℕ) : ℤ) - places = (position + 1 : ℕ) := by
      rw [hposition]
      push_cast
      ring
    unfold fixedText
    dsimp only
    rw [hdigits, hcast, withPoint, if_neg (by omega), Int.toNat_natCast, if_neg (by omega)]
  · rw [Numeral.isDigits, Bool.and_eq_true, List.all_eq_true]
    refine ⟨?_, fun c hc ↦ hmem c (List.mem_of_mem_take hc)⟩
    have hne : digits.take (position + 1) ≠ [] := by
      rw [← List.length_pos_iff, List.length_take]
      omega
    simpa using hne
  · exact List.all_eq_true.mpr fun c hc ↦ hmem c (List.mem_of_mem_drop hc)
  · rw [List.length_drop]
    omega
  · rw [List.take_append_drop, ← hdigits, Numeral.ofDigits_replicate_append, Numeral.ofDigits_toDigits]

theorem read?_fixedText {places : ℕ} (hplaces : 0 < places) (n : ℕ) :
    Numeral.read? (fixedText places n) = some (.decimal false n (-places)) := by
  obtain ⟨whole, fraction, htext, hwhole, hfraction, hlength, hvalue⟩ := exists_fixedText hplaces n
  rw [htext, Numeral.read?_point hwhole hfraction, hlength, hvalue]

theorem abs_scaled_sub_le (m : ℕ) (e : ℤ) (places : ℕ) :
    |(scaled m e places : ℚ) - m * 2 ^ e * 10 ^ places| ≤ 1 / 2 := by
  have hpos : 0 < twoTo (-e) * tenTo (-places) := Nat.mul_pos (twoTo_pos _) (tenTo_pos _)
  have hratio : ((m * twoTo e * tenTo places : ℕ) : ℚ) / (twoTo (-e) * tenTo (-places) : ℕ) =
      m * 2 ^ e * 10 ^ places := by
    have hten : tenTo (-(places : ℤ)) = 1 := by simp [tenTo]
    rw [hten, mul_one, ← Binary64.twoTo_div_twoTo]
    simp [tenTo]
    ring
  rw [← hratio]
  exact Binary64.abs_roundDiv_sub_le _ hpos

/-- **What is written with a fixed count of places is within half a unit of the last place of the
double.** -/
theorem exists_fixed {x : Float} (hx : 0 < (Binary64.ofFloat x).value) (places : ℕ) : ∃ n : ℕ,
    fixed places x = String.ofList (fixedText places n) ∧
      |n - (Binary64.ofFloat x).value * 10 ^ places| ≤ 1 / 2 := by
  obtain ⟨m, e, hfinite, hvalue⟩ := Binary64.exists_ofFloat_of_pos hx
  refine ⟨scaled m e places, ?_, hvalue ▸ abs_scaled_sub_le m e places⟩
  rw [fixed, layOut, hfinite]
  rfl

end Decimal

end FormulaNet

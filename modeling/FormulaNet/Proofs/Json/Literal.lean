import FormulaNet.Json.Reader
import FormulaNet.Proofs.Decimal.Fixed
import FormulaNet.Proofs.Decimal.Order
import FormulaNet.Proofs.Decimal.Shortest

/-!
# Literals of numbers

A literal is taken off the front of a text as long as what follows could not belong to it.  Natural numbers
and finite doubles are written as literals, and a natural number that fits 64 bits is what its literal
denotes.
-/

namespace FormulaNet

namespace Json

open Numeral (isDigits IsExponent isExponentMark)

variable {l ds rest whole fraction power : List Char}

/-! ## Reading -/

/-- Nothing that belongs to a number comes next. -/
def EndsLiteral (rest : List Char) : Prop :=
  ∀ c ∈ rest.head?, c.isDigit = false ∧ c ≠ '.' ∧ c ≠ 'e' ∧ c ≠ 'E'

/-- Digits before the point: a zero stands alone. -/
def IsWhole (ds : List Char) : Prop := isDigits ds = true ∧ (ds.head? = some '0' → ds = ['0'])

def IsFraction (cs : List Char) : Prop := cs = [] ∨ ∃ ds, cs = '.' :: ds ∧ isDigits ds = true

def IsPower (cs : List Char) : Prop := cs = [] ∨ IsExponent cs

inductive IsUnsigned : List Char → Prop
  | intro {whole fraction power : List Char} :
      IsWhole whole → IsFraction fraction → IsPower power → IsUnsigned (whole ++ fraction ++ power)

inductive IsLiteral : List Char → Prop
  | positive {l : List Char} : IsUnsigned l → IsLiteral l
  | negative {l : List Char} : IsUnsigned l → IsLiteral ('-' :: l)

theorem digits?_append (hds : isDigits ds = true) (hrest : ∀ c ∈ rest.head?, c.isDigit = false) :
    digits? (ds ++ rest) = some (ds, rest) := by
  rw [isDigits, Bool.and_eq_true, Bool.not_eq_true', List.isEmpty_eq_false_iff] at hds
  obtain ⟨htake, hdrop⟩ := Numeral.takeWhile_append_of_endsMantissa hds.2 hrest
  rw [digits?, htake, hdrop, if_neg hds.1]

theorem wholePart?_append (h : IsWhole whole) (hrest : ∀ c ∈ rest.head?, c.isDigit = false) :
    wholePart? (whole ++ rest) = some (whole, rest) := by
  by_cases hzero : whole.head? = some '0'
  · obtain rfl := h.2 hzero
    cases rest with
    | nil => rfl
    | cons c rest => exact if_neg (ne_true_of_eq_false (hrest c rfl))
  · obtain ⟨c, cs, rfl, -⟩ := Numeral.isDigits_iff.mp h.1
    rw [wholePart?]
    · exact digits?_append h.1 hrest
    · rintro _ _ heq
      exact hzero (congrArg some (List.cons.inj heq).1)

theorem fractionPart?_append (h : IsFraction fraction) (hrest : ∀ c ∈ rest.head?, c.isDigit = false ∧ c ≠ '.') :
    fractionPart? (fraction ++ rest) = some (fraction, rest) := by
  rcases h with rfl | ⟨ds, rfl, hds⟩
  · rw [List.nil_append, fractionPart?]
    rintro _ rfl
    exact (hrest '.' rfl).2 rfl
  · rw [List.cons_append, fractionPart?, digits?_append hds fun c hc ↦ (hrest c hc).1]
    rfl

theorem powerPart?_append (h : IsPower power) (hrest : EndsLiteral rest) :
    powerPart? (power ++ rest) = some (power, rest) := by
  rcases h with rfl | @⟨c, sign, ds, hmark, hsign, hds⟩
  · unfold powerPart?
    cases rest with
    | nil => rfl
    | cons c rest =>
        obtain ⟨-, -, he, hE⟩ := hrest c rfl
        exact if_neg (not_or.mpr ⟨he, hE⟩)
  · have hdigits := digits?_append hds fun c hc ↦ (hrest c hc).1
    rw [isExponentMark, Bool.or_eq_true, decide_eq_true_iff, decide_eq_true_iff] at hmark
    simp only [List.mem_cons, List.not_mem_nil, or_false] at hsign
    rcases hsign with rfl | rfl | rfl
    · obtain ⟨d, ds, rfl, hd, -⟩ := Numeral.isDigits_iff.mp hds
      refine (if_pos hmark).trans ?_
      split
      · next heq =>
        obtain ⟨rfl, -⟩ := List.cons.inj heq
        cases hd
      · next heq =>
        obtain ⟨rfl, -⟩ := List.cons.inj heq
        cases hd
      · exact congrArg (Option.map fun r ↦ (c :: r.1, r.2)) hdigits
    · exact (if_pos hmark).trans
        (congrArg (Option.map fun r : List Char × List Char ↦ (c :: '+' :: r.1, r.2)) hdigits)
    · exact (if_pos hmark).trans
        (congrArg (Option.map fun r : List Char × List Char ↦ (c :: '-' :: r.1, r.2)) hdigits)

/-- A literal is taken as a whole. -/
theorem literal?_append (h : IsLiteral l) (hrest : EndsLiteral rest) : literal? (l ++ rest) = some (l, rest) := by
  have hparts : ∀ {whole fraction power : List Char}, IsWhole whole → IsFraction fraction → IsPower power →
      wholePart? (whole ++ (fraction ++ (power ++ rest))) = some (whole, fraction ++ (power ++ rest)) ∧
        fractionPart? (fraction ++ (power ++ rest)) = some (fraction, power ++ rest) := by
    intro whole fraction power hwhole hfraction hpower
    have hafter : ∀ c ∈ (power ++ rest).head?, c.isDigit = false ∧ c ≠ '.' := by
      rcases hpower with rfl | hpower
      · exact fun c hc ↦ ⟨(hrest c hc).1, (hrest c hc).2.1⟩
      · have hends := Numeral.endsMantissa_of_isExponent hpower
        cases hpower with
        | intro => exact hends
    refine ⟨wholePart?_append hwhole ?_, fractionPart?_append hfraction hafter⟩
    rcases hfraction with rfl | ⟨ds, rfl, -⟩
    · exact fun c hc ↦ (hafter c hc).1
    · rintro c ⟨rfl⟩
      rfl
  unfold literal?
  obtain @⟨_, @⟨whole, fraction, power, hwhole, hfraction, hpower⟩⟩ |
    @⟨_, @⟨whole, fraction, power, hwhole, hfraction, hpower⟩⟩ := h
  · obtain ⟨hreadWhole, hreadFraction⟩ := hparts hwhole hfraction hpower
    obtain ⟨d, ds, rfl, hd, -⟩ := Numeral.isDigits_iff.mp hwhole.1
    have hne : d ≠ '-' := by
      rintro rfl
      cases hd
    simp only [List.append_assoc, List.cons_append] at hreadWhole ⊢
    simp [hne, hreadWhole, hreadFraction, powerPart?_append hpower hrest]
  · obtain ⟨hreadWhole, hreadFraction⟩ := hparts hwhole hfraction hpower
    simp [hreadWhole, hreadFraction, powerPart?_append hpower hrest]

theorem exists_head_of_isLiteral (h : IsLiteral l) : ∃ c cs, l = c :: cs ∧ (c.isDigit = true ∨ c = '-') := by
  cases h with
  | positive h =>
      obtain @⟨whole, fraction, power, hwhole, -, -⟩ := h
      obtain ⟨d, ds, rfl, hd, -⟩ := Numeral.isDigits_iff.mp hwhole.1
      exact ⟨d, _, rfl, .inl hd⟩
  | negative h => exact ⟨'-', _, rfl, .inr rfl⟩

/-! ## Writing -/

theorem isDigits_iff_forall : isDigits ds = true ↔ ds ≠ [] ∧ ∀ c ∈ ds, c.isDigit = true := by
  rw [isDigits, Bool.and_eq_true, List.all_eq_true, Bool.not_eq_true', List.isEmpty_eq_false_iff]

theorem isDigits_toDigits (n : Nat) : isDigits (Nat.toDigits 10 n) = true :=
  isDigits_iff_forall.mpr
    ⟨Nat.toDigits_ne_nil, fun _ hc ↦ Nat.isDigit_of_mem_toDigits (by decide) (by decide) hc⟩

/-- No zero comes first, but for the number zero. -/
theorem eq_zero_of_head?_toDigits {n : Nat} (h : (Nat.toDigits 10 n).head? = some '0') : n = 0 := by
  induction n using Nat.strongRecOn with
  | ind n ih =>
      rw [Nat.toDigits_eq_if (by decide)] at h
      split at h
      · next hlt =>
        have hsmall : ∀ n < 10, some n.digitChar = some '0' → n = 0 := by decide
        exact hsmall n hlt h
      · next hge =>
        rw [List.head?_append_of_ne_nil _ Nat.toDigits_ne_nil] at h
        have hzero := ih (n / 10) (by omega) h
        omega

theorem isWhole_toDigits (n : Nat) : IsWhole (Nat.toDigits 10 n) := by
  refine ⟨isDigits_toDigits n, fun h ↦ ?_⟩
  rw [eq_zero_of_head?_toDigits h]
  rfl

theorem isLiteral_ofNat (n : Nat) : IsLiteral (toString n).toList := by
  have h : IsUnsigned (Nat.toDigits 10 n ++ [] ++ []) := .intro (isWhole_toDigits n) (.inl rfl) (.inl rfl)
  rw [List.append_nil, List.append_nil] at h
  simpa using IsLiteral.positive h

/-- A whole number is written so that it is read back, as long as it fits 64 bits. -/
theorem natural?_ofNat {n : Nat} (h : n ≤ maxNatural) : (ofNat n).natural? = some n := by
  have htext : (toString n).toList = Nat.toDigits 10 n := by simp
  rw [ofNat, natural?]
  rw [htext, Numeral.ofDigits_toDigits, if_pos ⟨isDigits_toDigits n, h⟩]

/-! ### Doubles -/

open Decimal (withPoint leading powerText signed shortest)

theorem isLiteral_signed (h : IsUnsigned l) (negative : Bool) : IsLiteral (signed negative l).toList := by
  rw [signed, String.toList_ofList]
  cases negative with
  | false => exact .positive h
  | true => exact .negative h

theorem isDigit_of_mem_replicate {c : Char} {n : Nat} (h : c ∈ List.replicate n '0') : c.isDigit = true := by
  rw [List.eq_of_mem_replicate h]
  rfl

/-- A whole number, with the zeros that its power of ten stands for. -/
theorem isUnsigned_withPoint_whole {d : Decimal} (hzero : d.digits = 0 → d.exponent = 0) (he : 0 ≤ d.exponent) :
    IsUnsigned (withPoint d.text d.pointPosition ++ ['.', '0']) := by
  have hlength : 0 < d.text.length := Nat.length_toDigits_pos
  have htext : withPoint d.text d.pointPosition = d.text ++ List.replicate d.exponent.toNat '0' := by
    have hposition : d.pointPosition.toNat = d.text.length + d.exponent.toNat := by
      rw [Decimal.pointPosition]
      omega
    rw [withPoint, if_neg (by rw [Decimal.pointPosition]; omega), if_pos (by omega), hposition,
      Nat.add_sub_cancel_left]
  have hwhole : IsWhole (d.text ++ List.replicate d.exponent.toNat '0') := by
    obtain ⟨hne, hall⟩ := isDigits_iff_forall.mp (isDigits_toDigits d.digits)
    refine ⟨isDigits_iff_forall.mpr ⟨List.append_ne_nil_of_left_ne_nil hne _, fun c hc ↦ ?_⟩, fun hhead ↦ ?_⟩
    · exact (List.mem_append.mp hc).elim (hall c) isDigit_of_mem_replicate
    rw [Decimal.text, List.head?_append_of_ne_nil _ hne] at hhead
    have hdigits := eq_zero_of_head?_toDigits hhead
    rw [hzero hdigits, Decimal.text, hdigits]
    rfl
  have h : IsUnsigned (d.text ++ List.replicate d.exponent.toNat '0' ++ ['.', '0'] ++ []) :=
    .intro hwhole (.inr ⟨['0'], rfl, rfl⟩) (.inl rfl)
  rwa [List.append_nil, ← htext] at h

theorem isUnsigned_withPoint_fraction {d : Decimal} (he : d.exponent < 0) :
    IsUnsigned (withPoint d.text d.pointPosition) := by
  obtain ⟨hne, hall⟩ := isDigits_iff_forall.mp (isDigits_toDigits d.digits)
  unfold withPoint
  split
  · have hdigits : isDigits (List.replicate (-d.pointPosition).toNat '0' ++ d.text) = true :=
      isDigits_iff_forall.mpr ⟨List.append_ne_nil_of_right_ne_nil _ hne, fun c hc ↦
        (List.mem_append.mp hc).elim isDigit_of_mem_replicate (hall c)⟩
    have h : IsUnsigned (['0'] ++ ('.' :: (List.replicate (-d.pointPosition).toNat '0' ++ d.text)) ++ []) :=
      .intro ⟨rfl, fun _ ↦ rfl⟩ (.inr ⟨_, rfl, hdigits⟩) (.inl rfl)
    rwa [List.append_nil] at h
  · next hposition =>
    obtain ⟨n, hn⟩ : ∃ n : Nat, d.pointPosition.toNat = n + 1 := ⟨d.pointPosition.toNat - 1, by omega⟩
    have hlt : n + 1 < d.text.length := by
      have hposition : d.pointPosition = d.text.length + d.exponent := rfl
      omega
    rw [hn, if_neg (by omega)]
    have hwhole : IsWhole (d.text.take (n + 1)) := by
      refine ⟨isDigits_iff_forall.mpr ⟨?_, fun c hc ↦ hall c (List.mem_of_mem_take hc)⟩, fun hhead ↦ ?_⟩
      · rw [← List.length_pos_iff, List.length_take]
        omega
      · rw [List.head?_take, if_neg (Nat.succ_ne_zero n)] at hhead
        have hzero := eq_zero_of_head?_toDigits hhead
        rw [Decimal.text, hzero] at hlt
        exact absurd hlt (by simp)
    have hdigits : isDigits (d.text.drop (n + 1)) = true := by
      refine isDigits_iff_forall.mpr ⟨?_, fun c hc ↦ hall c (List.mem_of_mem_drop hc)⟩
      rw [← List.length_pos_iff, List.length_drop]
      omega
    have h : IsUnsigned (d.text.take (n + 1) ++ ('.' :: d.text.drop (n + 1)) ++ []) :=
      .intro hwhole (.inr ⟨_, rfl, hdigits⟩) (.inl rfl)
    rwa [List.append_nil] at h

theorem isExponent_power (power : Int) :
    IsExponent ('e' :: ((if 0 ≤ power then ['+'] else []) ++ powerText power)) := by
  cases power with
  | ofNat n =>
      have htext : powerText (Int.ofNat n) = Nat.toDigits 10 n := by simp [powerText, toString, Int.repr]
      have hpos : 0 ≤ Int.ofNat n := Int.natCast_nonneg n
      rw [if_pos hpos, htext]
      exact .intro rfl (by simp) (isDigits_toDigits n)
  | negSucc n =>
      have htext : powerText (Int.negSucc n) = ['-'] ++ Nat.toDigits 10 (n + 1) := by
        simp [powerText, toString, Int.repr]
      have h : IsExponent ('e' :: (['-'] ++ Nat.toDigits 10 (n + 1))) :=
        .intro rfl (by simp) (isDigits_toDigits (n + 1))
      rwa [if_neg (by omega), htext, List.nil_append]

theorem isUnsigned_leading (d : Decimal) (hpower : IsExponent power) : IsUnsigned (leading d.text ++ power) := by
  have hdigit : ∀ c, c.isDigit = true → IsWhole [c] := by
    intro c hc
    refine ⟨by simp [isDigits, hc], fun h ↦ ?_⟩
    rw [Option.some.inj h]
  obtain ⟨c, cs, htext, hc, hcs⟩ := Numeral.isDigits_iff.mp (isDigits_toDigits d.digits)
  rw [Decimal.text, htext]
  cases cs with
  | nil =>
      have h : IsUnsigned ([c] ++ [] ++ power) := .intro (hdigit c hc) (.inl rfl) (.inr hpower)
      exact h
  | cons e cs =>
      have h : IsUnsigned ([c] ++ ('.' :: e :: cs) ++ power) :=
        .intro (hdigit c hc) (.inr ⟨_, rfl, by rw [isDigits, hcs]; rfl⟩) (.inr hpower)
      exact h

/-- Every finite double is written as a literal. -/
theorem isLiteral_json {x : Float} (hx : x.isFinite = true) : IsLiteral (Decimal.json x).toList := by
  obtain ⟨negative, mantissa, exponent, hparts⟩ := Binary64.exists_ofFloat_of_isFinite hx
  rw [Decimal.json, Decimal.layOut, hparts]
  dsimp only
  refine isLiteral_signed ?_ negative
  split
  · have h : IsUnsigned (['0'] ++ ['.', '0'] ++ []) :=
      .intro ⟨rfl, fun _ ↦ rfl⟩ (.inr ⟨['0'], rfl, rfl⟩) (.inl rfl)
    exact h
  · next hmantissa =>
    have hpos := Nat.pos_of_ne_zero hmantissa
    split
    · split
      · next he => exact isUnsigned_withPoint_whole (Decimal.exponent_shortest hpos) he
      · next he => exact isUnsigned_withPoint_fraction (not_le.mp he)
    · exact isUnsigned_leading _ (isExponent_power _)

end Json

end FormulaNet

import FormulaNet.Scalar
import Mathlib.Data.List.TakeWhile
import Mathlib.Tactic.Common

/-!
# Decimal literals

The numerals that begin with a digit or a point: digits with at most one point among or around them, and perhaps an
exponent.  A text that begins so is read as a number just if it is one of them, and then it is read as a
decimal, so it denotes a number of any type of scalars.
-/

namespace FormulaNet

namespace Numeral

variable {c : Char} {cs ds m e rest whole fraction : List Char} {negative : Bool}

def isExponentMark (c : Char) : Bool := c = 'e' || c = 'E'

theorem isDigits_iff :
    isDigits ds = true ↔ ∃ c cs, ds = c :: cs ∧ c.isDigit = true ∧ cs.all Char.isDigit = true := by
  cases ds <;> simp [isDigits]

/-- Digits with at most one point among or around them; some digit has to be there. -/
inductive IsMantissa : List Char → Prop
  | whole {ds : List Char} : isDigits ds = true → IsMantissa ds
  | point {ds fs : List Char} : ds.all Char.isDigit = true → fs.all Char.isDigit = true → ds ++ fs ≠ [] →
      IsMantissa (ds ++ '.' :: fs)

/-- A mark, perhaps a sign, and digits. -/
inductive IsExponent : List Char → Prop
  | intro {c : Char} {sign ds : List Char} : isExponentMark c = true → sign ∈ [[], ['+'], ['-']] →
      isDigits ds = true → IsExponent (c :: (sign ++ ds))

/-- A mantissa, perhaps with an exponent. -/
inductive IsDecimal : List Char → Prop
  | mantissa {m : List Char} : IsMantissa m → IsDecimal m
  | scaled {m e : List Char} : IsMantissa m → IsExponent e → IsDecimal (m ++ e)

/-- The text begins with a digit, or with a point before one. -/
def StartsLiteral (cs : List Char) : Prop := ∃ c ∈ cs.head?, c.isDigit = true ∨ c = '.'

/-! ## Exponents -/

theorem exists_sign (cs : List Char) : ∃ sign ∈ [[], ['+'], ['-']], cs = sign ++ (takeSign cs).2 := by
  unfold takeSign
  split
  · exact ⟨['-'], by simp, rfl⟩
  · exact ⟨['+'], by simp, rfl⟩
  · exact ⟨[], by simp, rfl⟩

theorem takeSign_of_startsLiteral (h : StartsLiteral cs) : takeSign cs = (false, cs) := by
  obtain ⟨c, hc, hdigit⟩ := h
  unfold takeSign
  split
  · cases hc
    simp at hdigit
  · cases hc
    simp at hdigit
  · rfl

theorem startsLiteral_of_isDigits (h : isDigits ds = true) : StartsLiteral ds := by
  obtain ⟨c, cs, rfl, hc, -⟩ := isDigits_iff.mp h
  exact ⟨c, rfl, .inl hc⟩

theorem snd_takeSign {sign : List Char} (hsign : sign ∈ [[], ['+'], ['-']]) (hds : isDigits ds = true) :
    (takeSign (sign ++ ds)).2 = ds := by
  simp only [List.mem_cons, List.not_mem_nil, or_false] at hsign
  rcases hsign with rfl | rfl | rfl
  · rw [List.nil_append, takeSign_of_startsLiteral (startsLiteral_of_isDigits hds)]
  · rfl
  · rfl

theorem isSome_readPower?_iff : (readPower? e).isSome = true ↔ e = [] ∨ IsExponent e := by
  cases e with
  | nil => simp
  | cons c cs =>
      have hread : (readPower? (c :: cs)).isSome = true ↔
          isExponentMark c = true ∧ isDigits (takeSign cs).2 = true := by
        simp only [readPower?, isExponentMark, Bool.or_eq_true, decide_eq_true_iff]
        split <;> simp_all
      rw [hread]
      constructor
      · rintro ⟨hmark, hdigits⟩
        obtain ⟨sign, hsign, hcs⟩ := exists_sign cs
        rw [hcs]
        exact .inr (.intro hmark hsign hdigits)
      · rintro (h | ⟨hmark, hsign, hdigits⟩)
        · cases h
        · exact ⟨hmark, (snd_takeSign hsign hdigits).symm ▸ hdigits⟩

/-! ## Mantissas -/

/-- Neither a digit nor a point comes next. -/
def EndsMantissa (rest : List Char) : Prop := ∀ c ∈ rest.head?, c.isDigit = false ∧ c ≠ '.'

theorem takeWhile_append_of_endsMantissa (hds : ds.all Char.isDigit = true)
    (hrest : ∀ c ∈ rest.head?, c.isDigit = false) : (ds ++ rest).takeWhile Char.isDigit = ds ∧
      (ds ++ rest).dropWhile Char.isDigit = rest := by
  have hdigits : ∀ c ∈ ds, c.isDigit = true := List.all_eq_true.mp hds
  rw [List.takeWhile_append_of_pos hdigits, List.dropWhile_append_of_pos hdigits]
  cases rest with
  | nil => simp
  | cons c rest => simp [hrest c rfl]

/-- What is taken as a mantissa off the front of a text. -/
theorem exists_mantissa (cs : List Char) : ∃ m rest, cs = m ++ rest ∧
    (splitMantissa cs = (m, [], rest) ∧ m.all Char.isDigit = true ∨
      ∃ whole fraction, m = whole ++ '.' :: fraction ∧ splitMantissa cs = (whole, fraction, rest) ∧
        whole.all Char.isDigit = true ∧ fraction.all Char.isDigit = true) := by
  have hall : ∀ cs : List Char, (cs.takeWhile Char.isDigit).all Char.isDigit = true := fun cs ↦ by simp
  unfold splitMantissa
  dsimp only
  split
  · next rest hpoint =>
    refine ⟨cs.takeWhile Char.isDigit ++ '.' :: rest.takeWhile Char.isDigit, rest.dropWhile Char.isDigit, ?_,
      .inr ⟨_, _, rfl, rfl, hall cs, hall rest⟩⟩
    rw [List.append_assoc, List.cons_append, List.takeWhile_append_dropWhile, ← hpoint,
      List.takeWhile_append_dropWhile]
  · exact ⟨cs.takeWhile Char.isDigit, cs.dropWhile Char.isDigit, List.takeWhile_append_dropWhile.symm,
      .inl ⟨rfl, hall cs⟩⟩

theorem exists_splitMantissa_of_isMantissa (hm : IsMantissa m) (hrest : EndsMantissa rest) :
    ∃ whole fraction, splitMantissa (m ++ rest) = (whole, fraction, rest) ∧ whole ++ fraction ≠ [] := by
  cases hm with
  | whole hds =>
      rw [isDigits, Bool.and_eq_true] at hds
      have hsplit := takeWhile_append_of_endsMantissa hds.2 fun c hc ↦ (hrest c hc).1
      refine ⟨m, [], ?_, by simpa using hds.1⟩
      unfold splitMantissa
      simp only [hsplit]
      split
      · exact absurd rfl (hrest '.' rfl).2
      · rfl
  | @point ds fs hds hfs hne =>
      have hpoint : ∀ c ∈ ('.' :: (fs ++ rest)).head?, c.isDigit = false := by
        rintro c ⟨rfl⟩
        rfl
      have hsplit := takeWhile_append_of_endsMantissa hds hpoint
      have hsplit' := takeWhile_append_of_endsMantissa hfs fun c hc ↦ (hrest c hc).1
      refine ⟨ds, fs, ?_, hne⟩
      simp [splitMantissa, hsplit, hsplit']

theorem endsMantissa_of_isExponent (h : IsExponent e) : EndsMantissa e := by
  cases h with
  | @intro c _ _ hmark =>
      rintro d ⟨rfl⟩
      rw [isExponentMark, Bool.or_eq_true, decide_eq_true_iff, decide_eq_true_iff] at hmark
      rcases hmark with rfl | rfl <;> decide

/-! ## Reading -/

/-- The unsigned decimals are the literals. -/
theorem isSome_readUnsigned?_iff {negative : Bool} {cs : List Char} :
    (readUnsigned? negative cs).isSome = true ↔ IsDecimal cs := by
  have hread : ∀ {whole fraction rest}, splitMantissa cs = (whole, fraction, rest) →
      ((readUnsigned? negative cs).isSome = true ↔ whole ++ fraction ≠ [] ∧ (rest = [] ∨ IsExponent rest)) := by
    intro whole fraction rest hsplit
    rw [← isSome_readPower?_iff]
    simp only [readUnsigned?, hsplit]
    split <;> simp_all
  constructor
  · intro h
    obtain ⟨m, rest, hcs, hsplit⟩ := exists_mantissa cs
    have hm : IsMantissa m ∧ (rest = [] ∨ IsExponent rest) := by
      rcases hsplit with ⟨hsplit, hdigits⟩ | ⟨whole, fraction, rfl, hsplit, hwhole, hfraction⟩
      · obtain ⟨hne, hrest⟩ := (hread hsplit).mp h
        exact ⟨.whole (by simpa [isDigits, hdigits] using hne), hrest⟩
      · obtain ⟨hne, hrest⟩ := (hread hsplit).mp h
        exact ⟨.point hwhole hfraction hne, hrest⟩
    subst hcs
    rcases hm with ⟨hm, rfl | hrest⟩
    · rw [List.append_nil]
      exact .mantissa hm
    · exact .scaled hm hrest
  · intro h
    cases h with
    | mantissa hm =>
        have hends : EndsMantissa [] := nofun
        obtain ⟨whole, fraction, hsplit, hne⟩ := exists_splitMantissa_of_isMantissa hm hends
        rw [List.append_nil] at hsplit
        exact (hread hsplit).mpr ⟨hne, .inl rfl⟩
    | scaled hm he =>
        obtain ⟨whole, fraction, hsplit, hne⟩ :=
          exists_splitMantissa_of_isMantissa hm (endsMantissa_of_isExponent he)
        exact (hread hsplit).mpr ⟨hne, .inr he⟩

theorem toLower_of_isDigit (h : c.isDigit = true) : c.toLower = c := by
  rw [Char.isDigit_iff_toNat] at h
  have hbelow : ¬('A'.toNat ≤ c.toNat) := fun hle ↦ absurd (Nat.le_trans hle h.2) (by decide)
  exact dif_neg fun hupper ↦ hbelow (UInt32.le_iff_toNat_le.mp hupper.1)

/-- The names of special values begin with letters. -/
theorem readSpecial?_of_startsLiteral (h : StartsLiteral cs) : readSpecial? negative cs = none := by
  obtain ⟨c, hc, hdigit⟩ := h
  obtain ⟨ds, rfl⟩ : ∃ ds, cs = c :: ds := List.head?_eq_some_iff.mp hc
  have hlower : c.toLower = c := by
    rcases hdigit with hdigit | rfl
    · exact toLower_of_isDigit hdigit
    · rfl
  have hname : ∀ {s : String} {d : Char}, s.toList.head? = some d → d.isDigit = false ∧ d ≠ '.' →
      String.ofList ((c :: ds).map Char.toLower) ≠ s := by
    rintro s d hd ⟨hnot, hpoint⟩ rfl
    rw [String.toList_ofList, List.map_cons, hlower] at hd
    obtain rfl : c = d := Option.some.inj hd
    rcases hdigit with hdigit | hdigit
    · rw [hnot] at hdigit
      cases hdigit
    · exact hpoint hdigit
  have hinf : "inf".toList.head? = some 'i' := by simp
  have hinfinity : "infinity".toList.head? = some 'i' := by simp
  have hnan : "nan".toList.head? = some 'n' := by simp
  rw [readSpecial?, if_neg (not_or.mpr ⟨hname hinf (by decide), hname hinfinity (by decide)⟩),
    if_neg (hname hnan (by decide))]

theorem read?_of_startsLiteral (h : StartsLiteral cs) : read? cs = readUnsigned? false cs := by
  rw [read?, takeSign_of_startsLiteral h]
  dsimp only
  rw [readSpecial?_of_startsLiteral h, Option.or_none]

/-- The sign plays no part in what is read as the digits and the power of ten. -/
theorem exists_readUnsigned? (h : IsDecimal cs) : ∃ digits exponent,
    ∀ negative, readUnsigned? negative cs = some (.decimal negative digits exponent) := by
  have hsome : (readUnsigned? false cs).isSome = true := isSome_readUnsigned?_iff.mpr h
  unfold readUnsigned? at hsome ⊢
  dsimp only at hsome ⊢
  split at hsome
  · cases hsome
  · next hdigits =>
    rw [Option.isSome_map] at hsome
    obtain ⟨power, hpower⟩ := Option.isSome_iff_exists.mp hsome
    refine ⟨ofDigits ((splitMantissa cs).1 ++ (splitMantissa cs).2.1), power - (splitMantissa cs).2.1.length,
      fun negative ↦ ?_⟩
    rw [if_neg hdigits, hpower]
    rfl

end Numeral

namespace Scalar

/-- A text that begins like a literal denotes a scalar just if it is one. -/
theorem isSome_read?_iff {ν : Type} [Scalar ν] {s : String} (h : Numeral.StartsLiteral s.toList) :
    (read? s : Option ν).isSome = true ↔ Numeral.IsDecimal s.toList := by
  rw [read?, Numeral.read?_of_startsLiteral h]
  constructor
  · intro hsome
    obtain ⟨x, hx⟩ := Option.isSome_iff_exists.mp hsome
    obtain ⟨n, hn, -⟩ := Option.bind_eq_some_iff.mp hx
    exact Numeral.isSome_readUnsigned?_iff.mp (Option.isSome_iff_exists.mpr ⟨n, hn⟩)
  · intro hdecimal
    obtain ⟨digits, exponent, hread⟩ := Numeral.exists_readUnsigned? hdecimal
    rw [hread]
    rfl

end Scalar

end FormulaNet

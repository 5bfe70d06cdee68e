import FormulaNet.Proofs.Decimal.Literal

/-!
# Mantissas and their values

A mantissa is digits with at most one point among or around them.  It can be made longer by a digit, and by a
point as long as it has none; and without a power of ten behind it, it is read as its digits over ten for each
one after the point.
-/

namespace FormulaNet.Numeral

variable {c : Char} {cs ds m : List Char} {negative : Bool}

namespace IsMantissa

theorem startsLiteral (h : IsMantissa m) : StartsLiteral m := by
  cases h with
  | whole hds => exact startsLiteral_of_isDigits hds
  | @point ds fs hds hfs hne =>
      cases ds with
      | nil => exact ⟨'.', rfl, .inr rfl⟩
      | cons d ds => exact ⟨d, rfl, .inl (List.all_eq_true.mp hds d List.mem_cons_self)⟩

theorem count_point_le (h : IsMantissa m) : m.count '.' ≤ 1 := by
  have hnone : ∀ ds : List Char, ds.all Char.isDigit = true → ds.count '.' = 0 := by
    intro ds hds
    refine List.count_eq_zero.mpr fun hpoint ↦ ?_
    exact absurd (List.all_eq_true.mp hds '.' hpoint) (by decide)
  cases h with
  | whole hds =>
      rw [isDigits, Bool.and_eq_true] at hds
      exact Nat.le_succ_of_le (Nat.le_of_eq (hnone m hds.2))
  | point hds hfs => simp [hnone _ hds, hnone _ hfs]

/-- A digit may follow. -/
theorem concat_digit (h : IsMantissa m) (hc : c.isDigit = true) : IsMantissa (m ++ [c]) := by
  cases h with
  | whole hds => exact .whole (by simp_all [isDigits])
  | @point ds fs hds hfs hne =>
      rw [List.append_assoc, List.cons_append]
      exact .point hds (by rw [List.all_append, hfs, List.all_cons, hc]; rfl) (by simp)

/-- A first point may follow. -/
theorem concat_point (h : IsMantissa m) (hpoint : '.' ∉ m) : IsMantissa (m ++ ['.']) := by
  cases h with
  | whole hds =>
      rw [isDigits, Bool.and_eq_true] at hds
      exact .point hds.2 rfl (by simpa using hds.1)
  | point => simp at hpoint

theorem isDigits_of_point (h : IsMantissa ('.' :: ds)) : isDigits ds = true := by
  generalize hm : '.' :: ds = m at h
  cases h with
  | whole hds =>
      subst hm
      cases hds
  | @point whole fs hwhole hfs hne =>
      cases whole with
      | nil =>
          obtain ⟨-, rfl⟩ := List.cons.inj hm
          rw [isDigits, hfs, Bool.and_true, Bool.not_eq_true', List.isEmpty_eq_false_iff]
          exact hne
      | cons c whole =>
          obtain ⟨rfl, -⟩ := List.cons.inj hm
          cases hwhole

end IsMantissa

/-! ## Values -/

/-- The number that a mantissa writes: its digits, over ten for each one after the point. -/
def ofMantissa (negative : Bool) (m : List Char) : Numeral :=
  .decimal negative (ofDigits (m.filter Char.isDigit)) (-((m.dropWhile (· ≠ '.')).tail.length : Int))

theorem readUnsigned?_of_isMantissa (h : IsMantissa m) :
    readUnsigned? negative m = some (ofMantissa negative m) := by
  have hfilter : ∀ ds : List Char, ds.all Char.isDigit = true → ds.filter Char.isDigit = ds := fun ds hds ↦
    List.filter_eq_self.mpr (List.all_eq_true.mp hds)
  have hdrop : ∀ ds rest : List Char, ds.all Char.isDigit = true →
      (ds ++ rest).dropWhile (· ≠ '.') = rest.dropWhile (· ≠ '.') := by
    refine fun ds rest hds ↦ List.dropWhile_append_of_pos fun c hc ↦ decide_eq_true ?_
    rintro rfl
    exact absurd (List.all_eq_true.mp hds '.' hc) (by decide)
  have hsplit : ∀ ds rest : List Char, ds.all Char.isDigit = true → (∀ c ∈ rest.head?, c.isDigit = false) →
      (ds ++ rest).takeWhile Char.isDigit = ds ∧ (ds ++ rest).dropWhile Char.isDigit = rest :=
    fun _ _ ↦ takeWhile_append_of_endsMantissa
  cases h with
  | whole hds =>
      rw [isDigits, Bool.and_eq_true, Bool.not_eq_true'] at hds
      have hwhole := hsplit m [] hds.2 (by simp)
      have hnone := hdrop m [] hds.2
      rw [List.append_nil] at hwhole hnone
      rw [ofMantissa, hnone, hfilter m hds.2]
      simp [readUnsigned?, splitMantissa, hwhole, hds.1]
  | @point ds fs hds hfs hne =>
      have hwhole := hsplit ds ('.' :: fs) hds (by rintro c ⟨rfl⟩; rfl)
      have hfraction := hsplit fs [] hfs (by simp)
      rw [List.append_nil] at hfraction
      have hempty : (ds.isEmpty && fs.isEmpty) = false := by cases ds <;> simp_all
      rw [ofMantissa, hdrop ds _ hds, List.filter_append, hfilter ds hds, List.filter_cons_of_neg (by decide),
        hfilter fs hfs, List.dropWhile_cons_of_neg (by simp), List.tail_cons]
      simp [readUnsigned?, splitMantissa, hwhole, hfraction, hempty]

/-- A minus sign in front makes the number negative. -/
theorem read?_signed (h : StartsLiteral cs) (negative : Bool) :
    read? ((if negative then ['-'] else []) ++ cs) = readUnsigned? negative cs := by
  cases negative with
  | false => exact read?_of_startsLiteral h
  | true =>
      change (readUnsigned? true cs).or (readSpecial? true cs) = _
      rw [readSpecial?_of_startsLiteral h, Option.or_none]

end FormulaNet.Numeral

import FormulaNet.Proofs.Decimal.Mantissa
import FormulaNet.Proofs.Force.Direction
import Mathlib.Data.Nat.Find
import Mathlib.Data.String.Basic

/-!
# The number in a direction

The first decimal of a text is the longest of those that begin first, where a decimal is digits with at most
one point among or around them.  A direction is that number, negative after a minus sign, in radians if `rad`
comes next and in degrees if not; neither its words nor the kind of force matter then.

This holds as long as the decimal begins with a digit and no point comes right after it.  A point that it
begins with is passed over, together with the sign before it.  With a second point the digits are not read at
all, and the words are.
-/

namespace FormulaNet.Direction

open Numeral (IsMantissa StartsLiteral ofMantissa readUnsigned?)

variable {c x : Char} {cs before m after : List Char}

/-! ## Lower case -/

/-- Small letters, and a dot above one, are all that other characters become. -/
theorem eq_of_mem_lower (h : x ∈ lower c) (hletter : x.isLower = false) (hdot : x ≠ '\u0307') : c = x := by
  unfold lower at h
  split at h
  · cases List.mem_singleton.mp h
    cases hletter
  · rcases List.mem_cons.mp h with rfl | h
    · cases hletter
    · exact absurd (List.mem_singleton.mp h) hdot
  · rw [List.mem_singleton] at h
    rw [h, Char.isLower_toLower_eq_isAlpha, Char.isAlpha, Bool.or_eq_false_iff] at hletter
    rw [h, Char.toLower_eq_of_not_isUpper (ne_true_of_eq_false hletter.1)]

theorem eq_of_inNumeral (h : x ∈ lower c) (hx : inNumeral x = true) : c = x := by
  have hlower : x.isLower = false ∧ x ≠ '\u0307' := by
    rw [inNumeral, Bool.or_eq_true, decide_eq_true_iff] at hx
    rcases hx with hdigit | rfl
    · constructor
      · simp only [Char.isDigit, Char.isLower, Bool.and_eq_true, Bool.and_eq_false_iff, decide_eq_true_iff,
          decide_eq_false_iff_not] at hdigit ⊢
        exact .inl fun hle ↦ absurd (UInt32.le_trans hle hdigit.2) (by decide)
      · rintro rfl
        cases hdigit
    · decide
  exact eq_of_mem_lower h hlower.1 hlower.2

theorem eq_of_isMinus (h : x ∈ lower c) (hx : isMinus x = true) : c = x := by
  rw [isMinus, Bool.or_eq_true, decide_eq_true_iff, decide_eq_true_iff] at hx
  rcases hx with rfl | rfl
  · exact eq_of_mem_lower h (by decide) (by decide)
  · exact eq_of_mem_lower h (by decide) (by decide)

theorem lower_of_isMinus (h : isMinus c = true) : lower c = [c] := by
  rw [isMinus, Bool.or_eq_true, decide_eq_true_iff, decide_eq_true_iff] at h
  rcases h with rfl | rfl
  · decide
  · decide

theorem lower_ne_nil (c : Char) : lower c ≠ [] := by
  unfold lower
  split <;> exact List.cons_ne_nil _ _

/-- Whether a minus sign comes last. -/
def endsWithMinus (cs : List Char) : Bool := (cs.getLast?.map isMinus).getD false

theorem endsWithMinus_lower (cs : List Char) : endsWithMinus (cs.flatMap lower) = endsWithMinus cs := by
  rcases List.eq_nil_or_concat cs with rfl | ⟨init, c, rfl⟩
  · rfl
  · have hlast : isMinus ((lower c).getLast (lower_ne_nil c)) = isMinus c := by
      rw [Bool.eq_iff_iff]
      constructor
      · intro h
        rwa [eq_of_isMinus (List.getLast_mem _) h]
      · intro h
        simpa only [lower_of_isMinus h]
    rw [List.concat_eq_append, endsWithMinus, endsWithMinus, List.flatMap_append, List.flatMap_singleton,
      List.getLast?_append, List.getLast?_eq_getLast_of_ne_nil (lower_ne_nil c), List.getLast?_concat]
    exact hlast

/-- A run of digits and points is there in either case. -/
theorem span_lower (cs : List Char) : (cs.flatMap lower).takeWhile inNumeral = cs.takeWhile inNumeral ∧
    (cs.flatMap lower).dropWhile inNumeral = (cs.dropWhile inNumeral).flatMap lower := by
  induction cs with
  | nil => exact ⟨rfl, rfl⟩
  | cons c cs ih =>
      by_cases hc : inNumeral c = true
      · rw [List.flatMap_cons, lower_of_inNumeral hc, List.singleton_append, List.takeWhile_cons_of_pos hc,
          List.takeWhile_cons_of_pos hc, List.dropWhile_cons_of_pos hc, List.dropWhile_cons_of_pos hc, ih.1]
        exact ⟨rfl, ih.2⟩
      · obtain ⟨x, xs, hlower⟩ := List.exists_cons_of_ne_nil (lower_ne_nil c)
        have hx : ¬inNumeral x = true := fun hx ↦
          hc (eq_of_inNumeral (hlower ▸ List.mem_cons_self) hx ▸ hx)
        rw [List.takeWhile_cons_of_neg hc, List.dropWhile_cons_of_neg hc, List.flatMap_cons, hlower,
          List.cons_append, List.takeWhile_cons_of_neg hx, List.dropWhile_cons_of_neg hx]
        exact ⟨rfl, rfl⟩

/-! ## What is read -/

/-- The angle that a number stands for, by what comes after it. -/
def angle (after : List Char) (n : Numeral) : Float :=
  if ['r', 'a', 'd'].isPrefixOf (Text.trimStart (after.flatMap lower)) then n.toFloat else toRadians n.toFloat

/-- From the first digit on, digits and points are taken, and read with the sign before them. -/
theorem explicit?_eq (hbefore : ∀ c ∈ before, c.isDigit = false) (hc : c.isDigit = true) :
    explicit? (String.ofList (before ++ c :: cs)) =
      (readUnsigned? (endsWithMinus before) ((c :: cs).takeWhile inNumeral)).map
        (angle ((c :: cs).dropWhile inNumeral)) := by
  have hnumeral : inNumeral c = true := by rw [inNumeral, hc, Bool.true_or]
  -- no digit comes about in lower case, so the same characters are passed over
  have hskip : ∀ x ∈ before.flatMap lower, (!x.isDigit) = true := by
    intro x hx
    obtain ⟨c, hc, hx⟩ := List.mem_flatMap.mp hx
    rw [Bool.not_eq_true', Bool.eq_false_iff]
    intro hdigit
    have heq := eq_of_inNumeral hx (by rw [inNumeral, hdigit, Bool.true_or])
    exact absurd (hbefore c hc) (heq ▸ ne_false_of_eq_true hdigit)
  have hfirst : firstNumeral? (lowered (String.ofList (before ++ c :: cs))) =
      some ((if endsWithMinus before then ['-'] else []) ++ (c :: cs).takeWhile inNumeral,
        ((c :: cs).dropWhile inNumeral).flatMap lower) := by
    have hspan := span_lower (c :: cs)
    rw [List.flatMap_cons, lower_of_inNumeral hnumeral, List.singleton_append] at hspan
    rw [lowered, String.toList_ofList, List.flatMap_append, List.flatMap_cons, lower_of_inNumeral hnumeral,
      List.singleton_append, firstNumeral?, List.takeWhile_append_of_pos hskip, List.dropWhile_append_of_pos hskip,
      List.takeWhile_cons_of_neg (by simp [hc]), List.dropWhile_cons_of_neg (by simp [hc]), List.append_nil]
    dsimp only
    rw [hspan.1, hspan.2, ← endsWithMinus_lower before]
    rfl
  have hstarts : StartsLiteral ((c :: cs).takeWhile inNumeral) := by
    rw [List.takeWhile_cons_of_pos hnumeral]
    exact ⟨c, rfl, .inl hc⟩
  rw [explicit?, hfirst]
  simp only [Option.bind_eq_bind, Option.bind_some]
  rw [Numeral.read?_signed hstarts]
  cases readUnsigned? (endsWithMinus before) ((c :: cs).takeWhile inNumeral) with
  | none => rfl
  | some n => rfl

/-! ## The first decimal -/

theorem inNumeral_of_isMantissa (h : IsMantissa m) : ∀ c ∈ m, inNumeral c = true := by
  have hdigits : ∀ {ds : List Char}, ds.all Char.isDigit = true → ∀ c ∈ ds, inNumeral c = true := fun hds c hc ↦ by
    rw [inNumeral, List.all_eq_true.mp hds c hc, Bool.true_or]
  cases h with
  | whole hds =>
      rw [Numeral.isDigits, Bool.and_eq_true] at hds
      exact hdigits hds.2
  | point hds hfs =>
      intro c hc
      rcases List.mem_append.mp hc with hc | hc
      · exact hdigits hds c hc
      · rcases List.mem_cons.mp hc with rfl | hc
        · rfl
        · exact hdigits hfs c hc

/-- The longest of the decimals that begin first, and the text before and after it. -/
structure FirstDecimal (cs before m after : List Char) : Prop where
  eq_append : cs = before ++ (m ++ after)
  isMantissa : IsMantissa m
  before_le : ∀ before' m' after', cs = before' ++ (m' ++ after') → IsMantissa m' → before.length ≤ before'.length
  after_le : ∀ m' after', cs = before ++ (m' ++ after') → IsMantissa m' → after.length ≤ after'.length

theorem isMantissa_digit (hc : c.isDigit = true) : IsMantissa [c] :=
  .whole (by rw [Numeral.isDigits, List.all_cons, hc]; rfl)

/-- A decimal that nothing before it belongs to and nothing after it goes on with. -/
theorem FirstDecimal.of_ends (hcs : cs = before ++ (m ++ after)) (hm : IsMantissa m)
    (hbefore : ∀ c ∈ before, inNumeral c = false)
    (hafter : ∀ c ∈ after.head?, c.isDigit = false ∧ (c = '.' → '.' ∈ m)) : FirstDecimal cs before m after := by
  refine ⟨hcs, hm, fun before' m' after' hcs' hm' ↦ ?_, fun m' after' hcs' hm' ↦ ?_⟩
  -- a decimal that began earlier would have its first character in `before`
  · by_contra! hlt
    obtain ⟨skipped, rfl⟩ := List.prefix_of_prefix_length_le ⟨_, hcs'.symm⟩ ⟨_, hcs.symm⟩ hlt.le
    obtain ⟨c, skipped, rfl⟩ := List.exists_cons_of_ne_nil (l := skipped) (by rintro rfl; simp at hlt)
    have htail : c :: (skipped ++ (m ++ after)) = m' ++ after' := by
      rw [hcs, List.append_assoc] at hcs'
      exact List.append_cancel_left hcs'
    have hmem : c ∈ m' := by
      obtain ⟨d, hd, -⟩ := hm'.startsLiteral
      obtain ⟨ds, rfl⟩ := List.head?_eq_some_iff.mp hd
      obtain ⟨rfl, -⟩ := List.cons.inj htail
      exact List.mem_cons_self
    exact absurd (hbefore c (by simp)) (ne_false_of_eq_true (inNumeral_of_isMantissa hm' c hmem))
  -- a longer one would go on with the first character of `after`
  · by_contra! hlt
    have htail : m ++ after = m' ++ after' := List.append_cancel_left (hcs.symm.trans hcs')
    have hle : m.length ≤ m'.length := by
      have hlength := congrArg List.length htail
      simp only [List.length_append] at hlength
      omega
    obtain ⟨added, rfl⟩ := List.prefix_of_prefix_length_le ⟨_, rfl⟩ ⟨_, htail.symm⟩ hle
    rw [List.append_assoc] at htail
    obtain rfl := List.append_cancel_left htail
    obtain ⟨c, added, rfl⟩ := List.exists_cons_of_ne_nil (l := added) (by rintro rfl; simp at hlt)
    have hnumeral := inNumeral_of_isMantissa hm' c (by simp)
    obtain ⟨hdigit, hpoint⟩ := hafter c rfl
    rw [inNumeral, hdigit, Bool.false_or, decide_eq_true_iff] at hnumeral
    subst hnumeral
    have hcount := hm'.count_point_le
    rw [List.count_append, List.count_cons_self] at hcount
    have hone := List.count_pos_iff.mpr (hpoint rfl)
    omega

theorem exists_firstDecimal (h : ∃ c ∈ cs, c.isDigit = true) : ∃ before m after, FirstDecimal cs before m after := by
  have hplace : ∃ n before m after, cs = before ++ (m ++ after) ∧ IsMantissa m ∧ before.length = n := by
    obtain ⟨c, hmem, hc⟩ := h
    obtain ⟨before, after, rfl⟩ := List.append_of_mem hmem
    exact ⟨_, before, [c], after, rfl, isMantissa_digit hc, rfl⟩
  classical
  obtain ⟨before, m, after, hcs, hm, hbefore⟩ := Nat.find_spec hplace
  have hlength : ∃ n m after, cs = before ++ (m ++ after) ∧ IsMantissa m ∧ after.length = n :=
    ⟨_, m, after, hcs, hm, rfl⟩
  obtain ⟨m, after, hcs, hm, hafter⟩ := Nat.find_spec hlength
  refine ⟨before, m, after, hcs, hm, fun before' m' after' hcs' hm' ↦ ?_, fun m' after' hcs' hm' ↦ ?_⟩
  · exact hbefore ▸ Nat.find_min' hplace ⟨before', m', after', hcs', hm', rfl⟩
  · exact hafter ▸ Nat.find_min' hlength ⟨m', after', hcs', hm', rfl⟩

namespace FirstDecimal

variable (h : FirstDecimal cs before m after)

include h

theorem isDigit_before : ∀ c ∈ before, c.isDigit = false := by
  intro c hc
  obtain ⟨init, rest, rfl⟩ := List.append_of_mem hc
  rw [Bool.eq_false_iff]
  intro hdigit
  have hle := h.before_le init [c] (rest ++ (m ++ after))
    (by rw [h.eq_append, List.append_assoc]; rfl) (isMantissa_digit hdigit)
  rw [List.length_append, List.length_cons] at hle
  omega

/-- What could be added to the decimal does not come after it. -/
theorem not_isMantissa_concat : ∀ c ∈ after.head?, ¬IsMantissa (m ++ [c]) := by
  intro c hc hm
  obtain ⟨rest, rfl⟩ := List.head?_eq_some_iff.mp hc
  have hle := h.after_le (m ++ [c]) rest (by rw [h.eq_append, List.append_assoc]; rfl) hm
  rw [List.length_cons] at hle
  omega

theorem isDigit_after : ∀ c ∈ after.head?, c.isDigit = false := fun c hc ↦
  Bool.eq_false_iff.mpr fun hdigit ↦ h.not_isMantissa_concat c hc (h.isMantissa.concat_digit hdigit)

theorem point_mem (hpoint : after.head? = some '.') : '.' ∈ m :=
  by_contra fun hnot ↦ h.not_isMantissa_concat '.' hpoint (h.isMantissa.concat_point hnot)

end FirstDecimal

/-! ## Where it is the angle -/

/-- A run of digits and points is no number with a second point. -/
theorem readUnsigned?_eq_none {negative : Bool} {run : List Char} (hrun : ∀ c ∈ run, inNumeral c = true)
    (hcount : 2 ≤ run.count '.') : readUnsigned? negative run = none := by
  rw [← Option.not_isSome_iff_eq_none, Numeral.isSome_readUnsigned?_iff]
  rintro (hm | ⟨hm, he⟩)
  · exact absurd hm.count_point_le (Nat.not_le.mpr hcount)
  · cases he with
    | @intro c sign ds hmark =>
        have hc := hrun c (by simp)
        rw [Numeral.isExponentMark, Bool.or_eq_true, decide_eq_true_iff, decide_eq_true_iff] at hmark
        rcases hmark with rfl | rfl
        · cases hc
        · cases hc

theorem exists_cons_of_isMantissa (h : IsMantissa m) (hpoint : m.head? ≠ some '.') :
    ∃ c ds, m = c :: ds ∧ c.isDigit = true := by
  obtain ⟨c, hc, hdigit⟩ := h.startsLiteral
  obtain ⟨ds, rfl⟩ := List.head?_eq_some_iff.mp hc
  exact ⟨c, ds, rfl, hdigit.resolve_right fun heq ↦ hpoint (by rw [← heq]; rfl)⟩

namespace FirstDecimal

variable (h : FirstDecimal cs before m after)

include h

theorem explicit?_eq_angle (hm : m.head? ≠ some '.') (hafter : after.head? ≠ some '.') :
    explicit? (String.ofList cs) = some (angle after (ofMantissa (endsWithMinus before) m)) := by
  have hrun := inNumeral_of_isMantissa h.isMantissa
  have hstop : ∀ c ∈ after.head?, ¬inNumeral c = true := by
    intro c hc hnumeral
    rw [inNumeral, h.isDigit_after c hc, Bool.false_or, decide_eq_true_iff] at hnumeral
    exact hafter (hnumeral ▸ hc)
  have hspan : (m ++ after).takeWhile inNumeral = m ∧ (m ++ after).dropWhile inNumeral = after := by
    rw [List.takeWhile_append_of_pos hrun, List.dropWhile_append_of_pos hrun]
    cases after with
    | nil => exact ⟨List.append_nil m, rfl⟩
    | cons c after =>
        rw [List.takeWhile_cons_of_neg (hstop c rfl), List.dropWhile_cons_of_neg (hstop c rfl)]
        exact ⟨List.append_nil m, rfl⟩
  have hread : readUnsigned? (endsWithMinus before) m = _ := Numeral.readUnsigned?_of_isMantissa h.isMantissa
  obtain ⟨c, ds, rfl, hc⟩ := exists_cons_of_isMantissa h.isMantissa hm
  rw [h.eq_append, List.cons_append, explicit?_eq h.isDigit_before hc, ← List.cons_append, hspan.1, hspan.2, hread]
  rfl

theorem explicit?_eq_none (hm : m.head? ≠ some '.') (hafter : after.head? = some '.') :
    explicit? (String.ofList cs) = none := by
  have hpoint := h.point_mem hafter
  have hrun := inNumeral_of_isMantissa h.isMantissa
  obtain ⟨rest, rfl⟩ := List.head?_eq_some_iff.mp hafter
  -- the point of the decimal and the one after it are in the same run
  have hcount : 2 ≤ ((m ++ '.' :: rest).takeWhile inNumeral).count '.' := by
    rw [List.takeWhile_append_of_pos hrun, List.takeWhile_cons_of_pos (by rfl), List.count_append,
      List.count_cons_self]
    have hone := List.count_pos_iff.mpr hpoint
    omega
  have hread : readUnsigned? (endsWithMinus before) _ = none :=
    readUnsigned?_eq_none (fun c hc ↦ List.mem_takeWhile_imp hc) hcount
  obtain ⟨c, ds, rfl, hc⟩ := exists_cons_of_isMantissa h.isMantissa hm
  rw [h.eq_append, List.cons_append, explicit?_eq h.isDigit_before hc, ← List.cons_append, hread]
  rfl

theorem explicit?_eq_tail (hm : m.head? = some '.') :
    explicit? (String.ofList cs) = explicit? (String.ofList (m.tail ++ after)) := by
  obtain ⟨ds, rfl⟩ := List.head?_eq_some_iff.mp hm
  obtain ⟨c, ds, rfl, hc, -⟩ := Numeral.isDigits_iff.mp h.isMantissa.isDigits_of_point
  have hskip : ∀ x ∈ before ++ ['.'], x.isDigit = false := by
    intro x hx
    rcases List.mem_append.mp hx with hx | hx
    · exact h.isDigit_before x hx
    · rw [List.mem_singleton.mp hx]
      rfl
  have hsign : endsWithMinus (before ++ ['.']) = endsWithMinus [] := by
    rw [endsWithMinus, List.getLast?_concat]
    rfl
  have hcs : cs = (before ++ ['.']) ++ c :: (ds ++ after) := by
    rw [h.eq_append, List.append_assoc]
    rfl
  have htail : explicit? (String.ofList ([] ++ c :: (ds ++ after))) = _ := explicit?_eq nofun hc
  rw [hcs, explicit?_eq hskip hc, hsign, ← htail]
  rfl

end FirstDecimal

/-- **The first decimal of a direction is its angle, whatever the words and the kind of force, unless a point
stands at the decimal's front or right after it.  With a point in front the decimal begins after the point,
without a sign; with another point after it there is no number for the words to give way to.** -/
theorem resolve_firstDecimal {text : String} (hdigit : ∃ c ∈ text.toList, c.isDigit = true)
    (subType : Option String) : (∃ before m after, FirstDecimal text.toList before m after) ∧
      ∀ before m after, FirstDecimal text.toList before m after →
        (m.head? ≠ some '.' → after.head? ≠ some '.' →
          resolve (some text) subType = angle after (ofMantissa (endsWithMinus before) m)) ∧
        (m.head? ≠ some '.' → after.head? = some '.' →
          resolve (some text) subType = (keyword? text).getD (byKind subType)) ∧
        (m.head? = some '.' → resolve (some text) subType =
          ((explicit? (String.ofList (m.tail ++ after))).or (keyword? text)).getD (byKind subType)) := by
  have hresolve : ∀ a?, explicit? (String.ofList text.toList) = a? →
      resolve (some text) subType = (a?.or (keyword? text)).getD (byKind subType) := by
    rintro _ rfl
    rw [String.ofList_toList]
    rfl
  refine ⟨exists_firstDecimal hdigit, fun before m after h ↦ ⟨fun hm hafter ↦ ?_, fun hm hafter ↦ ?_, fun hm ↦ ?_⟩⟩
  · exact hresolve _ (h.explicit?_eq_angle hm hafter)
  · exact hresolve _ (h.explicit?_eq_none hm hafter)
  · exact hresolve _ (h.explicit?_eq_tail hm)

/-- Thirty degrees, although the word says up and gravity points down. -/
theorem resolve_firstDecimal_degrees : (∃ c ∈ "30 degrees up".toList, c.isDigit = true) ∧
    resolve (some "30 degrees up") (some "gravity") = angle " degrees up".toList (ofMantissa false "30".toList) ∧
      angle " degrees up".toList (ofMantissa false "30".toList) = toRadians 30 := by
  have hdigit : ∃ c ∈ "30 degrees up".toList, c.isDigit = true := ⟨'3', by simp, rfl⟩
  have hfirst : FirstDecimal "30 degrees up".toList [] "30".toList " degrees up".toList :=
    .of_ends (by simp) (.whole (by simp [Numeral.isDigits])) nofun (by simp)
  have hangle := ((resolve_firstDecimal hdigit (some "gravity")).2 _ _ _ hfirst).1
  exact ⟨hdigit, hangle (by simp) (by simp), by decide +kernel⟩

/-- The full stop of a sentence takes the number with it, and half a radian downwards is read as five upwards. -/
theorem resolve_ne_firstDecimal :
    (FirstDecimal "left at 30.5.".toList "left at ".toList "30.5".toList ".".toList ∧
      resolve (some "left at 30.5.") none = pi ∧ pi ≠ angle ".".toList (ofMantissa false "30.5".toList)) ∧
    FirstDecimal "-.5 rad".toList "-".toList ".5".toList " rad".toList ∧
      resolve (some "-.5 rad") none = 5 ∧ (5 : Float) ≠ angle " rad".toList (ofMantissa true ".5".toList) := by
  have hdegrees : IsMantissa "30.5".toList := by
    have h : IsMantissa (['3', '0'] ++ '.' :: ['5']) := .point rfl rfl (List.cons_ne_nil _ _)
    simpa using h
  have hradians : IsMantissa ".5".toList := by
    have h : IsMantissa ([] ++ '.' :: ['5']) := .point rfl rfl (List.cons_ne_nil _ _)
    simpa using h
  have hsentence : FirstDecimal "left at 30.5.".toList "left at ".toList "30.5".toList ".".toList :=
    .of_ends (by simp) hdegrees (by simp [inNumeral]) (by simp)
  have hhalf : FirstDecimal "-.5 rad".toList "-".toList ".5".toList " rad".toList :=
    .of_ends (by simp) hradians (by simp [inNumeral]) (by simp)
  exact ⟨⟨hsentence, by decide +kernel, by decide +kernel⟩, hhalf, by decide +kernel, by decide +kernel⟩

end FormulaNet.Direction

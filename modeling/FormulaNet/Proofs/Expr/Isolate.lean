import Mathlib.Tactic.Ring
import FormulaNet.Proofs.Expr.Simplify
import FormulaNet.Proofs.Expr.Exposed

/-!
# Solutions solve

For arithmetic equations over exact scalars: where both sides and the solution have values, the sides agree
if and only if the target has the value of the solution.  A solution is simplified as a whole, so along the
way it is not the peeled side that is known to have a value but its simplification; `exists_of_isolate` walks
back from the solution to the other side of the equation.
-/

namespace FormulaNet

open Scalar (Exact)

namespace Expr

variable {ν : Type}

/-- Built from numbers and symbols with signs, sums, differences, products and quotients only. -/
def Arithmetic : Expr ν → Prop
  | num _ => True
  | sym _ => True
  | neg e => e.Arithmetic
  | bin op l r => op ≠ .pow ∧ l.Arithmetic ∧ r.Arithmetic
  | call _ _ => False

variable [Exact ν] {env : Bindings ν} {target : String} {side other rest l r e : Expr ν} {op : Operator}
variable {t v w x y z : ν}

/-! ## Undoing an operation -/

/-- If the left operand is what undoing the operation says, the operation yields the other side. -/
theorem exists_of_undoLeft (hop : op ≠ .pow) (hundo : undoLeft op other rest = some e)
    (hrest : rawValue env rest = .ok y) (hz : op.Yields x y z) (hw : rawValue env e.simplify = .ok w) :
    ∃ v, rawValue env other.simplify = .ok v ∧ (z = v ↔ x = w) := by
  have hrest := rawValue_simplify hrest
  cases op with
  | add =>
      cases hundo
      obtain ⟨v, hv, hvw⟩ := exists_left_of_join hw hrest (by simp)
      simp only [Operator.Yields] at hz hvw
      refine ⟨v, hv, ?_⟩
      rw [← hz, ← hvw, eq_sub_iff_add_eq]
  | sub =>
      cases hundo
      obtain ⟨v, hv, hvw⟩ := exists_left_of_join hw hrest (by simp)
      simp only [Operator.Yields] at hz hvw
      refine ⟨v, hv, ?_⟩
      rw [← hz, ← hvw, sub_eq_iff_eq_add]
  | mul =>
      cases hundo
      obtain ⟨v, hv, hne, hvw⟩ := exists_left_of_join hw hrest (by simp)
      simp only [Operator.Yields] at hz
      refine ⟨v, hv, ?_⟩
      rw [← hz, ← hvw, eq_div_iff hne]
  | div =>
      cases hundo
      obtain ⟨hne, hz⟩ := hz
      obtain ⟨v, hv, hvw⟩ := exists_left_of_join hw hrest fun _ ↦ hne
      simp only [Operator.Yields] at hvw
      refine ⟨v, hv, ?_⟩
      rw [← hz, ← hvw, div_eq_iff hne]
  | pow => exact absurd rfl hop

/-- If the right operand is what undoing the operation says, the operation yields the other side. -/
theorem exists_of_undoRight (hop : op ≠ .pow) (hundo : undoRight op other rest = some e)
    (hrest : rawValue env rest = .ok x) (hz : op.Yields x y z) (hw : rawValue env e.simplify = .ok w) :
    ∃ v, rawValue env other.simplify = .ok v ∧ (z = v ↔ y = w) := by
  have hrest := rawValue_simplify hrest
  cases op with
  | add =>
      cases hundo
      obtain ⟨v, hv, hvw⟩ := exists_left_of_join hw hrest (by simp)
      simp only [Operator.Yields] at hz hvw
      refine ⟨v, hv, ?_⟩
      rw [← hz, ← hvw, eq_sub_iff_add_eq']
  | sub =>
      cases hundo
      obtain ⟨v, hv, hvw⟩ := exists_right_of_join hw hrest (by simp)
      simp only [Operator.Yields] at hz hvw
      refine ⟨v, hv, ?_⟩
      rw [← hz, ← hvw]
      constructor
      · rintro rfl
        exact (sub_sub_self x y).symm
      · rintro rfl
        exact sub_sub_self x v
  | mul =>
      cases hundo
      obtain ⟨v, hv, hne, hvw⟩ := exists_left_of_join hw hrest (by simp)
      simp only [Operator.Yields] at hz
      refine ⟨v, hv, ?_⟩
      rw [← hz, ← hvw, eq_div_iff hne, mul_comm]
  | div =>
      cases hundo
      obtain ⟨hy, hz⟩ := hz
      obtain ⟨v, hv, hne, hvw⟩ := exists_right_of_join hw hrest (by simp)
      refine ⟨v, hv, ?_⟩
      rw [← hz, ← hvw, div_eq_iff hy, eq_div_iff hne, mul_comm y v]
      exact eq_comm
  | pow => exact absurd rfl hop

/-! ## Isolation -/

/-- Isolation is sound: the side that is peeled agrees with the other side just where the target has the
value of the solution. -/
theorem exists_of_isolate (harith : side.Arithmetic) (hside : rawValue env side = .ok z)
    (ht : symbolValue env target = .ok t) (hsol : isolate target side other = some e)
    (hw : rawValue env e.simplify = .ok w) :
    ∃ v, rawValue env other.simplify = .ok v ∧ (z = v ↔ t = w) := by
  induction side generalizing other z with
  | num x => cases hsol
  | sym s =>
      unfold isolate at hsol
      split at hsol
      · next hs =>
        subst hs
        cases hsol
        obtain rfl : t = z := Except.ok.inj (ht.symm.trans hside)
        exact ⟨w, hw, Iff.rfl⟩
      · cases hsol
  | neg side ih =>
      obtain ⟨v, hv, hiff⟩ := ih harith (rawValue_neg_iff.mp hside) hsol
      rw [show -other = neg other from rfl, simplify_neg, rawValue_negated] at hv
      exact ⟨-v, hv, by rw [← hiff, neg_eq_iff_eq_neg]⟩
  | bin op l r ihl ihr =>
      obtain ⟨hop, hl, hr⟩ := harith
      obtain ⟨x, y, hx, hy, hz⟩ := rawValue_bin_iff.mp hside
      unfold isolate at hsol
      split at hsol
      · obtain ⟨other', hundo, hsol⟩ := Option.bind_eq_some_iff.mp hsol
        obtain ⟨v', hv', hiff'⟩ := ihl hl hx hsol
        obtain ⟨v, hv, hiff⟩ := exists_of_undoLeft hop hundo hy hz hv'
        exact ⟨v, hv, hiff.trans hiff'⟩
      · obtain ⟨other', hundo, hsol⟩ := Option.bind_eq_some_iff.mp hsol
        obtain ⟨v', hv', hiff'⟩ := ihr hr hy hsol
        obtain ⟨v, hv, hiff⟩ := exists_of_undoRight hop hundo hx hz hv'
        exact ⟨v, hv, hiff.trans hiff'⟩
  | call f side ih => cases harith

/-- Arithmetic hides no symbol. -/
theorem Arithmetic.exposed (h : e.Arithmetic) : e.Exposed target := by
  induction e with
  | num x => trivial
  | sym s => trivial
  | neg e ih => exact ih h
  | bin op l r ihl ihr =>
      obtain ⟨hop, hl, hr⟩ := h
      exact ⟨ihl hl, ihr hr, fun hpow ↦ absurd hpow hop⟩
  | call f e ih => cases h

/-! ## Collection -/

/-- Two expressions have the values of the slope and the offset of a line through a point. -/
def Through (env : Bindings ν) (slope offset : Expr ν) (t z : ν) : Prop :=
  ∃ a b, rawValue env slope = .ok a ∧ rawValue env offset = .ok b ∧ a * t + b = z

section Lines

variable {slope offset slope' offset' : Expr ν} {z' : ν}

theorem Through.neg (h : Through env slope offset t z) : Through env (-slope) (-offset) t (-z) := by
  obtain ⟨a, b, ha, hb, rfl⟩ := h
  refine ⟨-a, -b, rawValue_neg_iff.mpr ?_, rawValue_neg_iff.mpr ?_, by ring⟩
  · rw [neg_neg, ha]
  · rw [neg_neg, hb]

theorem Through.add (h : Through env slope offset t z) (h' : Through env slope' offset' t z') :
    Through env (slope + slope') (offset + offset') t (z + z') := by
  obtain ⟨a, b, ha, hb, rfl⟩ := h
  obtain ⟨a', b', ha', hb', rfl⟩ := h'
  exact ⟨a + a', b + b', rawValue_bin_iff.mpr ⟨a, a', ha, ha', rfl⟩,
    rawValue_bin_iff.mpr ⟨b, b', hb, hb', rfl⟩, by ring⟩

theorem Through.sub (h : Through env slope offset t z) (h' : Through env slope' offset' t z') :
    Through env (slope - slope') (offset - offset') t (z - z') := by
  obtain ⟨a, b, ha, hb, rfl⟩ := h
  obtain ⟨a', b', ha', hb', rfl⟩ := h'
  exact ⟨a - a', b - b', rawValue_bin_iff.mpr ⟨a, a', ha, ha', rfl⟩,
    rawValue_bin_iff.mpr ⟨b, b', hb, hb', rfl⟩, by ring⟩

theorem Through.mul_left (h : Through env slope offset t z) (hl : rawValue env l = .ok x) :
    Through env (l * slope) (l * offset) t (x * z) := by
  obtain ⟨a, b, ha, hb, rfl⟩ := h
  exact ⟨x * a, x * b, rawValue_bin_iff.mpr ⟨x, a, hl, ha, rfl⟩, rawValue_bin_iff.mpr ⟨x, b, hl, hb, rfl⟩,
    by ring⟩

theorem Through.mul_right (h : Through env slope offset t z) (hr : rawValue env r = .ok y) :
    Through env (slope * r) (offset * r) t (z * y) := by
  obtain ⟨a, b, ha, hb, rfl⟩ := h
  exact ⟨a * y, b * y, rawValue_bin_iff.mpr ⟨a, y, ha, hr, rfl⟩, rawValue_bin_iff.mpr ⟨b, y, hb, hr, rfl⟩,
    by ring⟩

theorem Through.div (h : Through env slope offset t z) (hr : rawValue env r = .ok y) (hne : y ≠ 0) :
    Through env (slope / r) (offset / r) t (z / y) := by
  obtain ⟨a, b, ha, hb, rfl⟩ := h
  exact ⟨a / y, b / y, rawValue_bin_iff.mpr ⟨a, y, ha, hr, hne, rfl⟩,
    rawValue_bin_iff.mpr ⟨b, y, hb, hr, hne, rfl⟩, by ring⟩

/-- The line of an expression without the target is level. -/
theorem through_of_not_contains (he : rawValue env e = .ok z) (hc : ¬ e.contains target = true)
    (hlinear : linear? target e = some (slope, offset)) (t : ν) : Through env slope offset t z := by
  unfold linear? at hlinear
  rw [if_neg hc] at hlinear
  cases hlinear
  exact ⟨0, z, by simp, he, by ring⟩

/-- A linear form has the value of the expression. -/
theorem through_of_linear? (he : rawValue env e = .ok z) (ht : symbolValue env target = .ok t)
    (hlinear : linear? target e = some (slope, offset)) : Through env slope offset t z := by
  induction e generalizing slope offset z with
  | num x => exact through_of_not_contains he (by simp [contains_iff]) hlinear t
  | sym s =>
      by_cases hs : s = target
      · subst hs
        rw [linear?, if_pos (by simp [contains_iff])] at hlinear
        cases hlinear
        obtain rfl : t = z := Except.ok.inj (ht.symm.trans he)
        exact ⟨1, 0, by simp, by simp, by ring⟩
      · exact through_of_not_contains he (by simp [contains_iff, hs]) hlinear t
  | neg e ih =>
      by_cases hc : (neg e).contains target = true
      · rw [linear?, if_pos hc, Option.map_eq_some_iff] at hlinear
        obtain ⟨⟨s, o⟩, hs, heq⟩ := hlinear
        cases heq
        have h := (ih (rawValue_neg_iff.mp he) hs).neg
        rw [neg_neg] at h
        exact h
      · exact through_of_not_contains he hc hlinear t
  | bin op l r ihl ihr =>
      by_cases hc : (bin op l r).contains target = true
      · obtain ⟨x, y, hx, hy, hz⟩ := rawValue_bin_iff.mp he
        cases op with
        | add =>
            rw [linear?, if_pos hc] at hlinear
            obtain ⟨⟨s, o⟩, hl, hlinear⟩ := Option.bind_eq_some_iff.mp hlinear
            obtain ⟨⟨s', o'⟩, hr, heq⟩ := Option.bind_eq_some_iff.mp hlinear
            cases heq
            exact hz ▸ (ihl hx hl).add (ihr hy hr)
        | sub =>
            rw [linear?, if_pos hc] at hlinear
            obtain ⟨⟨s, o⟩, hl, hlinear⟩ := Option.bind_eq_some_iff.mp hlinear
            obtain ⟨⟨s', o'⟩, hr, heq⟩ := Option.bind_eq_some_iff.mp hlinear
            cases heq
            exact hz ▸ (ihl hx hl).sub (ihr hy hr)
        | mul =>
            rw [linear?, if_pos hc] at hlinear
            split at hlinear
            · obtain ⟨⟨s, o⟩, hr, heq⟩ := Option.map_eq_some_iff.mp hlinear
              cases heq
              exact hz ▸ (ihr hy hr).mul_left hx
            · split at hlinear
              · obtain ⟨⟨s, o⟩, hl, heq⟩ := Option.map_eq_some_iff.mp hlinear
                cases heq
                exact hz ▸ (ihl hx hl).mul_right hy
              · cases hlinear
        | div =>
            rw [linear?, if_pos hc] at hlinear
            split at hlinear
            · obtain ⟨⟨s, o⟩, hl, heq⟩ := Option.map_eq_some_iff.mp hlinear
              cases heq
              obtain ⟨hne, hz⟩ := hz
              exact hz ▸ (ihl hx hl).div hy hne
            · cases hlinear
        | pow =>
            rw [linear?, if_pos hc] at hlinear
            cases hlinear
      · exact through_of_not_contains he hc hlinear t
  | call f e ih =>
      by_cases hc : (call f e).contains target = true
      · rw [linear?, if_pos hc] at hlinear
        cases hlinear
      · exact through_of_not_contains he hc hlinear t

end Lines

end Expr

namespace Equation

open FormulaNet.Expr

variable {ν : Type} [Exact ν] {env : Bindings ν} {target : String} {q : Equation ν} {e : Expr ν}
variable {t w x y : ν}

/-- Collection is sound. -/
theorem iff_of_collect (hx : rawValue env q.lhs = .ok x) (hy : rawValue env q.rhs = .ok y)
    (ht : symbolValue env target = .ok t) (hsol : q.collect target = some e)
    (hw : rawValue env e.simplify = .ok w) : x = y ↔ t = w := by
  obtain ⟨⟨slope, offset⟩, hlinear, hsol⟩ := Option.bind_eq_some_iff.mp hsol
  have hzero : rawValue env q.zeroForm = .ok (x - y) := rawValue_bin_iff.mpr ⟨x, y, hx, hy, rfl⟩
  obtain ⟨a, b, ha, hb, hab⟩ := through_of_linear? hzero ht hlinear
  dsimp only at hsol
  split at hsol
  · cases hsol
  · cases hsol
    obtain ⟨v, hv, hne, hvw⟩ :=
      exists_left_of_join hw (rawValue_simplify (rawValue_simplify ha)) (by simp)
    rw [show -offset = neg offset from rfl, simplify_neg, rawValue_negated, rawValue_simplify hb] at hv
    have hbv : b = -v := Except.ok.inj hv
    rw [← hvw, eq_div_iff hne, ← sub_eq_zero, ← hab, hbv, mul_comm, add_neg_eq_zero]

/-- **Solutions solve.**  Where the sides of an arithmetic equation and the solution have values, the sides
agree just where the target has the value of the solution. -/
theorem iff_of_solveFor (hl : q.lhs.Arithmetic) (hr : q.rhs.Arithmetic) (hx : rawValue env q.lhs = .ok x)
    (hy : rawValue env q.rhs = .ok y) (ht : symbolValue env target = .ok t)
    (hsol : q.solveFor target = .ok e) (hw : rawValue env e = .ok w) : x = y ↔ t = w := by
  unfold solveFor at hsol
  split at hsol
  · next e' hsol' =>
    cases hsol
    unfold solution? at hsol'
    split at hsol'
    · cases hsol'
    · obtain ⟨v, hv, hiff⟩ := exists_of_isolate hl hx ht hsol' hw
      obtain rfl : y = v := Except.ok.inj ((rawValue_simplify hy).symm.trans hv)
      exact hiff
    · obtain ⟨v, hv, hiff⟩ := exists_of_isolate hr hy ht hsol' hw
      obtain rfl : x = v := Except.ok.inj ((rawValue_simplify hx).symm.trans hv)
      exact eq_comm.trans hiff
    · exact iff_of_collect hx hy ht hsol' hw
  · cases hsol

/-- A symbol that occurs once in an arithmetic equation can be solved for. -/
theorem exists_solveFor_of_once (hl : q.lhs.Arithmetic) (hr : q.rhs.Arithmetic)
    (honce : q.lhs.count target + q.rhs.count target = 1) : ∃ e, q.solveFor target = .ok e :=
  exists_solveFor_of_exposed hl.exposed hr.exposed honce

/-- Only a symbol of the equation is solved for. -/
theorem count_ne_zero_of_solveFor (hsol : q.solveFor target = .ok e) :
    q.lhs.count target ≠ 0 ∨ q.rhs.count target ≠ 0 := by
  by_contra hcount
  rw [not_or, not_not, not_not] at hcount
  rw [solveFor, solution?, hcount.1, hcount.2] at hsol
  cases hsol

/-- **No solution is wrong and none is lost.**  Under bindings for which the sides of an arithmetic equation and
its solution are defined, the equation holds if and only if the target is bound to the value of the
solution. -/
theorem holds_iff_of_solveFor (hl : q.lhs.Arithmetic) (hr : q.rhs.Arithmetic)
    (hsol : q.solveFor target = .ok e) (hx : q.lhs.value env = .ok x) (hy : q.rhs.value env = .ok y)
    (hw : e.value env = .ok w) : x = y ↔ symbolValue env target = .ok w := by
  rw [value_iff] at hx hy hw
  obtain ⟨t, ht⟩ : ∃ t, symbolValue env target = .ok t := by
    rcases count_ne_zero_of_solveFor hsol with hcount | hcount
    · exact exists_symbolValue hx hcount
    · exact exists_symbolValue hy hcount
  rw [iff_of_solveFor hl hr hx hy ht hsol hw, ht, Except.ok.injEq]

/-- An equation with the target on both sides. -/
def balance : Equation ℚ := ⟨sym "k" * sym "x" - num 3, sym "x" / num 2 + sym "c"⟩

/-- For a `k` of 3 and a `c` of 2 the solution has the value 2: there the sides are both 3, and at an `x` of 4
they are 9 and 4. -/
theorem holds_iff_balance :
    balance.solveFor "x" = .ok (-(num (-3) - sym "c") / (sym "k" - num (1 / 2))) ∧
      ((3 : ℚ) = 3 ↔ symbolValue [("k", (3 : ℚ)), ("c", 2), ("x", 2)] "x" = .ok 2) ∧
      ((9 : ℚ) = 4 ↔ symbolValue [("k", (3 : ℚ)), ("c", 2), ("x", 4)] "x" = .ok 2) := by
  have hl : balance.lhs.Arithmetic := ⟨by decide, ⟨by decide, trivial, trivial⟩, trivial⟩
  have hr : balance.rhs.Arithmetic := ⟨by decide, ⟨by decide, trivial, trivial⟩, trivial⟩
  have hsol : balance.solveFor "x" = .ok (-(num (-3) - sym "c") / (sym "k" - num (1 / 2))) :=
    eq_ok_of_toOption (by decide +kernel)
  refine ⟨hsol, holds_iff_of_solveFor hl hr hsol ?_ ?_ ?_, holds_iff_of_solveFor hl hr hsol ?_ ?_ ?_⟩ <;>
    exact eq_ok_of_toOption (by decide +kernel)

end Equation

end FormulaNet

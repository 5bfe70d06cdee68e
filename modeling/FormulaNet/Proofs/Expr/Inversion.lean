import FormulaNet.Proofs.Expr.Meaning
import FormulaNet.Proofs.Expr.Symbols
import FormulaNet.Proofs.Reading.Real

/-!
# Inverse operations

Isolating a symbol undoes the operations around it.  Over real numbers what undoes an operation leads back to
the other side of the equation only from values that the operation has: a root is not negative, an arc lies
within its principal values.  Where isolation meets no other values, both sides agree at the solution.
Nothing more can be said, since the inverse is taken without asking: `sqrt(x) = y` is solved by `y ^ 2` for
negative `y` too.
-/

namespace FormulaNet

namespace Expr

section Solid

variable {K : Type} [Field K] [DecidableEq K] {R : Reading K} {env : Bindings R.Number} {target : String}
variable {side other rest e : Expr R.Number} {op : Operator} {f : Function} {x y : K}

/-! ## Solid solutions -/

theorem solid_undoLeft (hundo : undoLeft op other rest = some e) (hother : other.Solid env)
    (hrest : Means env rest y) (hne : op = .div → y ≠ 0) : e.Solid env := by
  cases op with
  | add | sub | mul =>
      cases hundo
      exact ⟨hother, hrest.solid, nofun⟩
  | div =>
      cases hundo
      exact ⟨hother, hrest.solid, fun _ ↦ ⟨y, hrest, fun hy ↦ absurd hy (hne rfl)⟩⟩
  | pow =>
      unfold undoLeft at hundo
      dsimp only at hundo
      split at hundo
      · split_ifs at hundo
        · cases hundo
          exact hother
        · cases hundo
          exact ⟨hother, trivial, nofun⟩
      · cases hundo
        exact ⟨hother, ⟨trivial, hrest.solid, nofun⟩, nofun⟩

theorem solid_undoRight (hundo : undoRight op other rest = some e) (hother : other.Solid env)
    (hrest : rest.Solid env) : e.Solid env := by
  cases op with
  | add | mul | pow =>
      cases hundo
      exact ⟨hother, hrest, nofun⟩
  | sub | div =>
      cases hundo
      exact ⟨hrest, hother, nofun⟩

theorem solid_undoCall (hundo : undoCall f other = some e) (hother : other.Solid env) : e.Solid env := by
  cases f with
  | abs => cases hundo
  | sqrt =>
      cases hundo
      exact ⟨hother, trivial, nofun⟩
  | log10 =>
      cases hundo
      exact ⟨trivial, hother, nofun⟩
  | _ =>
      cases hundo
      exact hother

/-- Isolation puts no product over an operand without a meaning. -/
theorem solid_isolate (hside : Means env side x) (hsol : isolate target side other = some e)
    (hother : other.Solid env) : e.Solid env := by
  induction side generalizing other x with
  | num a => cases hsol
  | sym s =>
      unfold isolate at hsol
      split at hsol
      · cases hsol
        exact hother
      · cases hsol
  | neg side ih => exact ih (means_neg.mp hside) hsol hother
  | bin op l r ihl ihr =>
      obtain ⟨x, y, hx, hy, hz⟩ := means_bin.mp hside
      unfold isolate at hsol
      split at hsol
      · obtain ⟨other', hundo, hsol⟩ := Option.bind_eq_some_iff.mp hsol
        refine ihl hx hsol (solid_undoLeft hundo hother hy ?_)
        rintro rfl rfl
        simp [Reading.operate?] at hz
      · obtain ⟨other', hundo, hsol⟩ := Option.bind_eq_some_iff.mp hsol
        exact ihr hy hsol (solid_undoRight hundo hother hx.solid)
  | call f side ih =>
      obtain ⟨y, hy, -⟩ := means_call.mp hside
      obtain ⟨other', hundo, hsol⟩ := Option.bind_eq_some_iff.mp hsol
      exact ih hy hsol (solid_undoCall hundo hother)

end Solid

end Expr

/-! ## Values from which an inverse leads back -/

namespace Function

/-- The values of a function, as far as its inverse is defined for others too. -/
def InRange : Function → ℝ → Prop
  | sqrt, z => 0 ≤ z
  | asin, z => -(Real.pi / 2) ≤ z ∧ z ≤ Real.pi / 2
  | acos, z => 0 ≤ z ∧ z ≤ Real.pi
  | atan, z => -(Real.pi / 2) < z ∧ z < Real.pi / 2
  | _, _ => True

end Function

namespace Reading

variable {x y z : ℝ}

/-- The values of a power, as far as roots are defined for others too: with the reciprocal of an even number for
its exponent it is not negative. -/
def PowerInRange (y z : ℝ) : Prop := 0 ≤ z ∨ ∀ k : ℤ, 2 * k * y ≠ 1

theorem exists_eq_intCast_of_powerDefined (h : PowerDefined x y) (hx : x < 0) : ∃ n : ℤ, y = n := by
  rcases h with hpos | ⟨hzero, -⟩ | ⟨-, hn⟩
  · exact absurd hpos hx.not_gt
  · exact absurd hzero hx.ne
  · exact hn

theorem nonneg_of_powerDefined (h : PowerDefined 0 y) : 0 ≤ y := by
  rcases h with hpos | ⟨-, hy⟩ | ⟨hneg, -⟩
  · exact absurd hpos (lt_irrefl 0)
  · exact hy
  · exact absurd hneg (lt_irrefl 0)

theorem powerDefined_of_nonneg (hx : 0 ≤ x) (hy : 0 ≤ y) : PowerDefined x y :=
  hx.eq_or_lt.elim (fun hzero ↦ .inr (.inl ⟨hzero.symm, hy⟩)) .inl

/-- The power of a root is the value in its range that the root was taken of. -/
theorem rpow_root (hy : y ≠ 0) (hroot : PowerDefined z (1 / y)) (hpower : PowerDefined (z ^ (1 / y)) y)
    (hrange : PowerInRange y z) : (z ^ (1 / y)) ^ y = z := by
  rcases lt_trichotomy z 0 with hz | rfl | hz
  · obtain ⟨n, hn⟩ := exists_eq_intCast_of_powerDefined hroot hz
    rw [hn, Real.rpow_intCast] at hpower ⊢
    have hny : (n : ℝ) * y = 1 := by rw [← hn, one_div_mul_cancel hy]
    have hodd : Odd n := by
      by_contra heven
      obtain ⟨k, rfl⟩ := even_iff_exists_two_mul.mp (Int.not_odd_iff_even.mp heven)
      refine hrange.resolve_left hz.not_ge k ?_
      rw [← hny]
      push_cast
      ring
    -- A root of a negative number is negative in its turn, and of its powers only the whole ones are defined.
    obtain ⟨m, rfl⟩ := exists_eq_intCast_of_powerDefined hpower (hodd.zpow_neg hz)
    have hnm : n * m = 1 := by exact_mod_cast hny
    rw [Real.rpow_intCast, ← zpow_mul, hnm, zpow_one]
  · have hpos : 0 < 1 / y := lt_of_le_of_ne (nonneg_of_powerDefined hroot) (one_div_ne_zero hy).symm
    rw [Real.zero_rpow hpos.ne', Real.zero_rpow hy]
  · rw [← Real.rpow_mul hz.le, one_div_mul_cancel hy, Real.rpow_one]

end Reading

/-! ## Undoing -/

namespace Expr

open Reading

variable {env : Bindings real.Number} {target : String} {side other rest e : Expr real.Number}
variable {op : Operator} {f : Function} {v w x y z : ℝ}

/-- A power is undone by a root. -/
theorem exists_root_of_undoLeft (hundo : undoLeft .pow other rest = some e) (hrest : Means env rest y)
    (he : Means env e x) : ∃ z, Means env other z ∧ y ≠ 0 ∧ PowerDefined z (1 / y) ∧ z ^ (1 / y) = x := by
  -- But for a square root, it is a power with a quotient for its exponent, computed at once or not.
  have hroot {r : Expr real.Number} (he : Means env (bin .pow other r) x)
      (hr : ∀ u, Means env r u → real.operate? .div 1 y = some u) :
      ∃ z, Means env other z ∧ y ≠ 0 ∧ PowerDefined z (1 / y) ∧ z ^ (1 / y) = x := by
    obtain ⟨z, u, hz, hu, hx⟩ := means_bin.mp he
    obtain ⟨hy, rfl⟩ := operate?_div_eq_some_iff.mp (hr u hu)
    exact ⟨z, hz, hy, real_power?_eq_some_iff.mp hx⟩
  unfold undoLeft at hundo
  dsimp only at hundo
  split at hundo
  · next n hn =>
    obtain rfl := number?_eq_some_iff.mp hn
    obtain rfl := means_num.mp hrest
    split_ifs at hundo with htwo hzero
    · cases hundo
      rw [Number.ofNat_eq, Number.same_of_iff, Number.of.injEq] at htwo
      obtain ⟨z, hz, hx⟩ := means_call.mp he
      obtain ⟨hdefined, rfl⟩ := real_call?_eq_some_iff.mp hx
      rw [htwo, Nat.cast_ofNat]
      exact ⟨z, hz, two_ne_zero, powerDefined_of_nonneg hdefined one_half_pos.le, (Real.sqrt_eq_rpow z).symm⟩
    · cases hundo
      refine hroot he fun u hu ↦ ?_
      obtain ⟨a, b, ha, hb, hu⟩ := Number.div_eq_of_iff.mp (means_num.mp hu)
      rw [Number.ofNat_one, Number.of.injEq] at ha
      rwa [ha, Number.of.inj hb]
  · cases hundo
    refine hroot he fun u hu ↦ ?_
    obtain ⟨a, b, ha, hb, hu⟩ := means_bin.mp hu
    rw [means_num, Number.ofNat_one, Number.of.injEq] at ha
    rwa [ha, hrest.unique hb]

/-- If the left operand is what undoing the operation says, the operation yields the other side. -/
theorem exists_means_of_undoLeft (hundo : undoLeft op other rest = some e) (hrest : Means env rest y)
    (he : Means env e x) :
    ∃ z, Means env other z ∧
      ∀ w, real.operate? op x y = some w → (op = .pow → PowerInRange y z) → w = z := by
  cases op with
  | add =>
      cases hundo
      obtain ⟨z, hz, hx⟩ := he.left_of_bin hrest
      refine ⟨z, hz, fun w hw _ ↦ ?_⟩
      rw [← Option.some.inj hw, ← Option.some.inj hx, sub_add_cancel]
  | sub =>
      cases hundo
      obtain ⟨z, hz, hx⟩ := he.left_of_bin hrest
      refine ⟨z, hz, fun w hw _ ↦ ?_⟩
      rw [← Option.some.inj hw, ← Option.some.inj hx, add_sub_cancel_right]
  | mul =>
      cases hundo
      obtain ⟨z, hz, hx⟩ := he.left_of_bin hrest
      obtain ⟨hne, rfl⟩ := operate?_div_eq_some_iff.mp hx
      refine ⟨z, hz, fun w hw _ ↦ ?_⟩
      rw [← Option.some.inj hw, div_mul_cancel₀ z hne]
  | div =>
      cases hundo
      obtain ⟨z, hz, hx⟩ := he.left_of_bin hrest
      refine ⟨z, hz, fun w hw _ ↦ ?_⟩
      obtain ⟨hne, rfl⟩ := operate?_div_eq_some_iff.mp hw
      rw [← Option.some.inj hx, mul_div_cancel_right₀ z hne]
  | pow =>
      obtain ⟨z, hz, hne, hroot, rfl⟩ := exists_root_of_undoLeft hundo hrest he
      refine ⟨z, hz, fun w hw hrange ↦ ?_⟩
      obtain ⟨hpower, rfl⟩ := real_power?_eq_some_iff.mp hw
      exact rpow_root hne hroot hpower (hrange rfl)

/-- If the right operand is what undoing the operation says, the operation yields the other side. -/
theorem exists_means_of_undoRight (hundo : undoRight op other rest = some e) (hrest : Means env rest y)
    (he : Means env e x) :
    ∃ z, Means env other z ∧ ∀ w, real.operate? op y x = some w → w = z := by
  cases op with
  | add =>
      cases hundo
      obtain ⟨z, hz, hx⟩ := he.left_of_bin hrest
      refine ⟨z, hz, fun w hw ↦ ?_⟩
      rw [← Option.some.inj hw, ← Option.some.inj hx, add_sub_cancel]
  | sub =>
      cases hundo
      obtain ⟨z, hz, hx⟩ := he.right_of_bin hrest
      refine ⟨z, hz, fun w hw ↦ ?_⟩
      rw [← Option.some.inj hw, ← Option.some.inj hx, sub_sub_cancel]
  | mul =>
      cases hundo
      obtain ⟨z, hz, hx⟩ := he.left_of_bin hrest
      obtain ⟨hne, rfl⟩ := operate?_div_eq_some_iff.mp hx
      refine ⟨z, hz, fun w hw ↦ ?_⟩
      rw [← Option.some.inj hw, mul_div_cancel₀ z hne]
  | div =>
      cases hundo
      obtain ⟨z, hz, hx⟩ := he.right_of_bin hrest
      obtain ⟨-, rfl⟩ := operate?_div_eq_some_iff.mp hx
      refine ⟨z, hz, fun w hw ↦ ?_⟩
      obtain ⟨hne, rfl⟩ := operate?_div_eq_some_iff.mp hw
      exact div_div_cancel₀ (div_ne_zero_iff.mp hne).1
  | pow =>
      cases hundo
      obtain ⟨a, b, ha, hb, hx⟩ := means_bin.mp he
      obtain ⟨z, hz, ha⟩ := means_call.mp ha
      obtain ⟨y', hy', hb⟩ := means_call.mp hb
      obtain rfl := hrest.unique hy'
      obtain ⟨hzpos, rfl⟩ := real_call?_eq_some_iff.mp ha
      obtain ⟨hypos, rfl⟩ := real_call?_eq_some_iff.mp hb
      obtain ⟨hne, rfl⟩ := operate?_div_eq_some_iff.mp hx
      have hlog : Real.log y ≠ 0 := hne
      refine ⟨z, hz, fun w hw ↦ ?_⟩
      obtain ⟨-, rfl⟩ := real_power?_eq_some_iff.mp hw
      calc y ^ (Real.log z / Real.log y) = Real.exp (Real.log y * (Real.log z / Real.log y)) :=
            Real.rpow_def_of_pos hypos _
        _ = Real.exp (Real.log z) := by rw [mul_div_cancel₀ _ hlog]
        _ = z := Real.exp_log hzpos

/-- A function is undone by another that it leads back from. -/
theorem exists_means_of_call {g : Function} (he : Means env (call g other) x)
    (h : ∀ z, g.Defined z → f.InRange z → f.real (g.real z) = z) :
    ∃ z, Means env other z ∧ (f.InRange z → f.real x = z) := by
  obtain ⟨z, hz, hx⟩ := means_call.mp he
  obtain ⟨hdefined, rfl⟩ := real_call?_eq_some_iff.mp hx
  exact ⟨z, hz, h z hdefined⟩

/-- If the argument is what undoing the function says, the function yields the other side. -/
theorem exists_means_of_undoCall (hundo : undoCall f other = some e) (he : Means env e x) :
    ∃ z, Means env other z ∧ (f.InRange z → f.real x = z) := by
  cases f with
  | sqrt =>
      cases hundo
      obtain ⟨z, hz, hx⟩ := he.left_of_bin (y := 2) (by rw [means_num, Number.ofNat_eq, Nat.cast_ofNat])
      obtain ⟨-, rfl⟩ := real_power?_eq_some_iff.mp hx
      refine ⟨z, hz, fun hrange ↦ ?_⟩
      rw [Real.rpow_ofNat]
      exact Real.sqrt_sq hrange
  | log10 =>
      cases hundo
      obtain ⟨z, hz, hx⟩ := he.right_of_bin (x := 10) (by rw [means_num, Number.ofNat_eq, Nat.cast_ofNat])
      obtain ⟨-, rfl⟩ := real_power?_eq_some_iff.mp hx
      exact ⟨z, hz, fun _ ↦ Real.logb_rpow (by norm_num) (by norm_num)⟩
  | sin =>
      cases hundo
      exact exists_means_of_call he fun z hdefined _ ↦ Real.sin_arcsin hdefined.1 hdefined.2
  | cos =>
      cases hundo
      exact exists_means_of_call he fun z hdefined _ ↦ Real.cos_arccos hdefined.1 hdefined.2
  | tan =>
      cases hundo
      exact exists_means_of_call he fun z _ _ ↦ Real.tan_arctan z
  | asin =>
      cases hundo
      exact exists_means_of_call he fun z _ hrange ↦ Real.arcsin_sin hrange.1 hrange.2
  | acos =>
      cases hundo
      exact exists_means_of_call he fun z _ hrange ↦ Real.arccos_cos hrange.1 hrange.2
  | atan =>
      cases hundo
      exact exists_means_of_call he fun z _ hrange ↦ Real.arctan_tan hrange.1 hrange.2
  | ln =>
      cases hundo
      exact exists_means_of_call he fun z _ _ ↦ Real.log_exp z
  | exp =>
      cases hundo
      exact exists_means_of_call he fun z hdefined _ ↦ Real.exp_log hdefined
  | abs => cases hundo

/-! ## Isolation -/

/-- Isolation undoes every power of the target's side and every call at a value in its range. -/
def InRange (env : Bindings real.Number) (target : String) : Expr real.Number → Expr real.Number → Prop
  | num _, _ => True
  | sym _, _ => True
  | neg side, other => side.InRange env target (-other)
  | bin op l r, other =>
    if l.contains target then
      (op = .pow → ∀ y z, Means env r y → Means env other z → PowerInRange y z) ∧
        ∀ other', undoLeft op other r = some other' → l.InRange env target other'
    else ∀ other', undoRight op other l = some other' → r.InRange env target other'
  | call f side, other =>
    (∀ z, Means env other z → f.InRange z) ∧
      ∀ other', undoCall f other = some other' → side.InRange env target other'

/-- Isolation in range is sound: the side that is peeled has the value of the other side. -/
theorem exists_means_of_isolate (hside : Means env side x) (ht : Means env (sym target) w)
    (hsol : isolate target side other = some e) (he : Means env e w) :
    ∃ z, Means env other z ∧ (side.InRange env target other → x = z) := by
  induction side generalizing other x with
  | num a => cases hsol
  | sym s =>
      unfold isolate at hsol
      split at hsol
      · next hs =>
        subst hs
        cases hsol
        exact ⟨w, he, fun _ ↦ hside.unique ht⟩
      · cases hsol
  | neg side ih =>
      obtain ⟨z, hz, heq⟩ := ih (means_neg.mp hside) hsol
      exact ⟨-z, means_neg.mp hz, fun hrange ↦ neg_eq_iff_eq_neg.mp (heq hrange)⟩
  | bin op l r ihl ihr =>
      obtain ⟨x₁, x₂, hl, hr, hx⟩ := means_bin.mp hside
      unfold isolate at hsol
      split at hsol
      · next hleft =>
        obtain ⟨other', hundo, hsol⟩ := Option.bind_eq_some_iff.mp hsol
        obtain ⟨z', hz', heq'⟩ := ihl hl hsol
        obtain ⟨z, hz, heq⟩ := exists_means_of_undoLeft hundo hr hz'
        refine ⟨z, hz, fun hrange ↦ ?_⟩
        rw [InRange, if_pos hleft] at hrange
        obtain rfl := heq' (hrange.2 other' hundo)
        exact heq x hx fun hop ↦ hrange.1 hop x₂ z hr hz
      · next hleft =>
        obtain ⟨other', hundo, hsol⟩ := Option.bind_eq_some_iff.mp hsol
        obtain ⟨z', hz', heq'⟩ := ihr hr hsol
        obtain ⟨z, hz, heq⟩ := exists_means_of_undoRight hundo hl hz'
        refine ⟨z, hz, fun hrange ↦ ?_⟩
        rw [InRange, if_neg hleft] at hrange
        obtain rfl := heq' (hrange other' hundo)
        exact heq x hx
  | call f side ih =>
      obtain ⟨x', hx', hx⟩ := means_call.mp hside
      obtain ⟨other', hundo, hsol⟩ := Option.bind_eq_some_iff.mp hsol
      obtain ⟨z', hz', heq'⟩ := ih hx' hsol
      obtain ⟨z, hz, heq⟩ := exists_means_of_undoCall hundo hz'
      refine ⟨z, hz, fun hrange ↦ ?_⟩
      obtain rfl := heq' (hrange.2 other' hundo)
      rw [← (real_call?_eq_some_iff.mp hx).2]
      exact heq (hrange.1 z hz)

end Expr

namespace Equation

open FormulaNet.Expr Reading

variable {q : Equation real.Number} {env : Bindings real.Number} {target : String}
variable {e side other : Expr real.Number} {v x y : ℝ}

/-- Solving the equation undoes every power and every call around the target at a value in its range. -/
def InRange (env : Bindings real.Number) (target : String) (q : Equation real.Number) : Prop :=
  if q.lhs.contains target then q.lhs.InRange env target q.rhs else q.rhs.InRange env target q.lhs

/-- Isolation in range is sound, also if the solution is known by its simplification only. -/
theorem eq_of_isolate (hside : Means env side x) (hother : Means env other y)
    (ht : Means env (sym target) v) (hsol : isolate target side other = some e)
    (he : Means env e.simplify v) (hrange : side.InRange env target other) : x = y := by
  have hsolid : e.Solid env := solid_isolate hside hsol hother.solid
  obtain ⟨z, hz, heq⟩ := exists_means_of_isolate hside ht hsol (hsolid.means he)
  rw [heq hrange]
  exact hz.unique hother

/-- Binding the target changes nothing for a solution, which is free of it. -/
theorem means_cons_of_solveFor (hsol : q.solveFor target = .ok e) (hv : Means env e v) :
    Means ((target, .of v) :: env) e v := by
  refine means_iff.mpr (rawValue_mono (fun s w hs hw ↦ ?_) (means_iff.mp hv))
  have hne : (s == target) = false := beq_false_of_ne (symbol_of_solveFor hsol hs).1
  rw [symbolValue, List.lookup_cons, hne]
  exact hw

/-- **In range, solutions solve.**  Take an equation in which the target occurs once, its solution, and the value
that the solution has under some bindings of the other symbols.  If both sides are defined at this value of the
target, and if every power and every call around the target is undone at a value in its range, then both sides
have the same value there. -/
theorem sides_eq_of_inRange (honce : q.lhs.count target + q.rhs.count target = 1)
    (hsol : q.solveFor target = .ok e) (hv : e.value env = .ok (.of v))
    (hx : q.lhs.value ((target, .of v) :: env) = .ok (.of x))
    (hy : q.rhs.value ((target, .of v) :: env) = .ok (.of y))
    (hrange : q.InRange ((target, .of v) :: env) target) : x = y := by
  have he := means_cons_of_solveFor hsol hv
  have ht : Means ((target, .of v) :: env) (sym target) v :=
    means_sym.mpr (by rw [symbolValue, List.lookup_cons_self])
  unfold solveFor at hsol
  split at hsol
  · next e' hsol' =>
    cases hsol
    unfold InRange at hrange
    rcases Nat.add_eq_one_iff.mp honce with ⟨hleft, hright⟩ | ⟨hleft, hright⟩
    · rw [if_neg (by simp [contains_iff, hleft])] at hrange
      rw [solution?, hleft, hright] at hsol'
      exact (eq_of_isolate hy hx ht hsol' he hrange).symm
    · rw [if_pos (by simp [contains_iff, hleft])] at hrange
      rw [solution?, hleft, hright] at hsol'
      exact eq_of_isolate hx hy ht hsol' he hrange
  · cases hsol

/-- An equation with a root of the target. -/
noncomputable def root : Equation real.Number := ⟨call .sqrt (sym "x") + sym "k", sym "y"⟩

/-- The root is undone by a square. -/
noncomputable def square : Expr real.Number := bin .pow (sym "y" - sym "k") (num (.of 2))

/-- Bindings of the symbols but the target. -/
noncomputable def others (y : ℝ) : Bindings real.Number := [("k", .of 1), ("y", .of y)]

theorem solveFor_root : root.solveFor "x" = .ok square := by
  have htwo : (Scalar.ofNat 2 : real.Number) = .of 2 := by rw [Number.ofNat_eq, Nat.cast_ofNat]
  simp [root, square, solveFor, solution?, isolate, undoLeft, undoCall, join, fold?, dropNeutral, isNum,
    htwo, add_def, sub_def, contains]

theorem means_square : Means (others y) square ((y - 1) ^ 2) := by
  have hbase : Means (others y) (sym "y" - sym "k") (y - 1) :=
    means_bin.mpr ⟨y, 1, means_sym.mpr rfl,
      means_sym.mpr rfl, rfl⟩
  have hdefined : PowerDefined (y - 1) 2 := by
    rcases lt_or_ge (y - 1) 0 with hneg | hnonneg
    · exact .inr (.inr ⟨hneg, 2, by norm_num⟩)
    · exact powerDefined_of_nonneg hnonneg zero_le_two
  exact means_bin.mpr ⟨y - 1, 2, hbase, means_num.mpr rfl,
    real_power?_eq_some_iff.mpr ⟨hdefined, Real.rpow_two _⟩⟩

theorem means_lhs_root (hv : 0 ≤ v) : Means (("x", .of v) :: others y) root.lhs (√v + 1) :=
  means_bin.mpr ⟨√v, 1,
    means_call.mpr ⟨v, means_sym.mpr rfl, real_call?_eq_some_iff.mpr ⟨hv, rfl⟩⟩,
    means_sym.mpr rfl, rfl⟩

theorem means_rhs_root : Means (("x", .of v) :: others y) root.rhs y :=
  means_sym.mpr rfl

/-- Where `sqrt(x) + k = y` is solved for a `y` of 3 and a `k` of 1, the root is undone at 2, so that the sides
agree at the solution 4. -/
theorem sides_eq_root :
    root.lhs.count "x" + root.rhs.count "x" = 1 ∧ root.solveFor "x" = .ok square ∧
      square.value (others 3) = .ok (.of 4) ∧
      root.lhs.value (("x", .of 4) :: others 3) = .ok (.of (√4 + 1)) ∧
      root.rhs.value (("x", .of 4) :: others 3) = .ok (.of 3) ∧
      root.InRange (("x", .of 4) :: others 3) "x" ∧ √(4 : ℝ) + 1 = 3 := by
  have hsquare : square.value (others 3) = .ok (.of 4) := by
    rw [show (4 : ℝ) = (3 - 1) ^ 2 by norm_num]
    exact means_square
  have hl : root.lhs.value (("x", .of 4) :: others 3) = .ok (.of (√4 + 1)) := means_lhs_root (by norm_num)
  have hrange : root.InRange (("x", .of 4) :: others 3) "x" := by
    refine (if_pos rfl).mpr ⟨nofun, ?_⟩
    rintro other hother
    cases hother
    refine ⟨fun z hz ↦ ?_, fun _ _ ↦ trivial⟩
    have htwo : Means (("x", .of 4) :: others 3) (sym "y" - sym "k") (3 - 1) :=
      means_bin.mpr ⟨3, 1, means_sym.mpr rfl, means_sym.mpr rfl, rfl⟩
    rw [hz.unique htwo]
    show (0 : ℝ) ≤ 3 - 1
    norm_num
  exact ⟨rfl, solveFor_root, hsquare, hl, means_rhs_root, hrange,
    sides_eq_of_inRange rfl solveFor_root hsquare hl means_rhs_root hrange⟩

/-- Out of range they do not: for a `y` of 0 the root is undone at -1, and at the solution 1 the sides are 2
and 0. -/
theorem sides_ne_root :
    root.lhs.count "x" + root.rhs.count "x" = 1 ∧ root.solveFor "x" = .ok square ∧
      square.value (others 0) = .ok (.of 1) ∧
      root.lhs.value (("x", .of 1) :: others 0) = .ok (.of 2) ∧
      root.rhs.value (("x", .of 1) :: others 0) = .ok (.of 0) ∧ (2 : ℝ) ≠ 0 := by
  refine ⟨rfl, solveFor_root, ?_, ?_, means_rhs_root, two_ne_zero⟩
  · rw [show (1 : ℝ) = (0 - 1) ^ 2 by norm_num]
    exact means_square
  · rw [show (2 : ℝ) = √1 + 1 by norm_num]
    exact means_lhs_root zero_le_one

end Equation

end FormulaNet

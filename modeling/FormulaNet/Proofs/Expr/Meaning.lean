import FormulaNet.Proofs.Reading.Real
import FormulaNet.Proofs.Expr.Value
import FormulaNet.Proofs.Expr.NormalForm

/-!
# What expressions mean

Under a reading an expression means a number if all of its parts do.  Joining two operands means what their
operation does, with one exception: a product with the literal zero means zero whatever the other factor is,
also where that factor means nothing.  So simplification keeps the meaning of every expression, and may only
give a meaning to expressions that had none.
-/

namespace FormulaNet.Expr

open Reading

variable {K : Type} [Field K] [DecidableEq K] {R : Reading K} {env : Bindings R.Number}
variable {e l r : Expr R.Number} {op : Operator} {f : Function} {a b w : R.Number} {s : String} {x y z : K}

/-! ## Meaning -/

/-- The expression has a number for its value. -/
def Means (env : Bindings R.Number) (e : Expr R.Number) (x : K) : Prop := e.value env = .ok (.of x)

theorem means_iff : Means env e x ↔ rawValue env e = .ok (.of x) := by
  rw [Means, value_eq_ok_iff]
  exact and_iff_left rfl

theorem Means.unique (hx : Means env e x) (hy : Means env e y) : x = y :=
  Number.of.inj (Except.ok.inj (hx.symm.trans hy))

/-- Only numbers are values. -/
theorem value_eq_ok_iff_means : e.value env = .ok w ↔ ∃ x, w = .of x ∧ Means env e x := by
  constructor
  · intro h
    obtain ⟨x, rfl⟩ := Number.isFinite_iff.mp (value_eq_ok_iff.mp h).2
    exact ⟨x, rfl, h⟩
  · rintro ⟨x, rfl, h⟩
    exact h

@[simp] theorem means_num : Means env (num a) x ↔ a = .of x := by simp [means_iff]

theorem means_sym : Means env (sym s) x ↔ symbolValue env s = .ok (.of x) := by simp [means_iff]

@[simp] theorem means_neg : Means env (neg e) z ↔ Means env e (-z) := by
  simp [means_iff, rawValue_neg_eq_ok_iff, Number.neg_eq_of_iff]

theorem operate_eq_ok_of_iff {whole : Expr R.Number} :
    operate whole op a b = .ok (.of z) ↔ ∃ x y, a = .of x ∧ b = .of y ∧ R.operate? op x y = some z := by
  cases op with
  | add | sub | mul | pow =>
      rw [operate, Except.ok.injEq]
      exact Number.lift_eq_of_iff
  | div =>
      rw [operate, Number.ofNat_zero]
      split
      · next hb =>
        simp only [Number.same_of_iff] at hb
        simp [hb, operate?]
      · rw [Except.ok.injEq]
        exact Number.lift_eq_of_iff

theorem means_bin : Means env (bin op l r) z ↔
    ∃ x y, Means env l x ∧ Means env r y ∧ R.operate? op x y = some z := by
  simp only [means_iff, rawValue_bin_eq_ok_iff, operate_eq_ok_of_iff]
  constructor
  · rintro ⟨_, hx, _, hy, x, y, rfl, rfl, h⟩
    exact ⟨x, y, hx, hy, h⟩
  · rintro ⟨x, y, hx, hy, h⟩
    exact ⟨_, hx, _, hy, x, y, rfl, rfl, h⟩

theorem Means.left_of_bin (h : Means env (bin op l r) z) (hr : Means env r y) :
    ∃ x, Means env l x ∧ R.operate? op x y = some z := by
  obtain ⟨x, y', hx, hy', hz⟩ := means_bin.mp h
  obtain rfl := hr.unique hy'
  exact ⟨x, hx, hz⟩

theorem Means.right_of_bin (h : Means env (bin op l r) z) (hl : Means env l x) :
    ∃ y, Means env r y ∧ R.operate? op x y = some z := by
  obtain ⟨x', y, hx', hy, hz⟩ := means_bin.mp h
  obtain rfl := hl.unique hx'
  exact ⟨y, hy, hz⟩

theorem callFunction_eq_ok_of_iff : callFunction f a = .ok (.of z) ↔ Scalar.apply f a = .of z := by
  rw [callFunction]
  cases Scalar.apply f a with
  | of x => exact iff_of_eq (Except.ok.injEq (Number.of x) (Number.of z))
  | undefined => exact iff_of_false nofun nofun

theorem means_call : Means env (call f e) z ↔ ∃ x, Means env e x ∧ R.call? f x = some z := by
  simp only [means_iff, rawValue_call_eq_ok_iff, callFunction_eq_ok_of_iff, Number.apply_eq_of_iff]
  constructor
  · rintro ⟨_, hx, x, rfl, h⟩
    exact ⟨x, hx, h⟩
  · rintro ⟨x, hx, h⟩
    exact ⟨_, hx, x, rfl, h⟩

/-! ## Simplification -/

theorem isNum_of_iff : e.isNum (.of x) = true ↔ e = num (.of x) := by
  cases e with
  | num a => simp [isNum]
  | _ => exact iff_of_false nofun nofun

theorem isNum_zero_iff : e.isNum (Scalar.ofNat 0) = true ↔ e = num (.of 0) := by
  rw [Number.ofNat_zero, isNum_of_iff]

@[simp] theorem means_negated : Means env (negated e) z ↔ Means env e (-z) := by
  cases e with
  | num a => simp [negated, Number.neg_eq_of_iff]
  | neg e => simp [negated]
  | sym _ | bin _ _ _ | call _ _ => exact means_neg

/-! What is dropped is a number that leaves the other operand, or its negation. -/

theorem NeutralLeft.exists_of (hu : NeutralLeft op a) : ∃ x, a = .of x ∧ ∀ y, R.operate? op x y = some y := by
  cases hu with
  | add => exact ⟨0, Number.ofNat_zero, fun y ↦ congrArg some (zero_add y)⟩
  | mul => exact ⟨1, Number.ofNat_one, fun y ↦ congrArg some (one_mul y)⟩

theorem NeutralRight.exists_of (hu : NeutralRight op b) :
    ∃ y, b = .of y ∧ ∀ x, R.operate? op x y = some x := by
  cases hu with
  | add => exact ⟨0, Number.ofNat_zero, fun x ↦ congrArg some (add_zero x)⟩
  | sub => exact ⟨0, Number.ofNat_zero, fun x ↦ congrArg some (sub_zero x)⟩
  | mul => exact ⟨1, Number.ofNat_one, fun x ↦ congrArg some (mul_one x)⟩
  | div => exact ⟨1, Number.ofNat_one, fun x ↦ operate?_div_eq_some_iff.mpr ⟨one_ne_zero, div_one x⟩⟩
  | pow => exact ⟨1, Number.ofNat_one, R.power?_one⟩

theorem neg_ofNat_one : -Scalar.ofNat 1 = (.of (-1) : R.Number) := by rw [Number.ofNat_one, Number.neg_of]

theorem NegatingLeft.exists_of (hu : NegatingLeft op a) :
    ∃ x, a = .of x ∧ ∀ y, R.operate? op x y = some (-y) := by
  cases hu with
  | sub => exact ⟨0, Number.ofNat_zero, fun y ↦ congrArg some (zero_sub y)⟩
  | mul => exact ⟨-1, neg_ofNat_one, fun y ↦ congrArg some (neg_one_mul y)⟩

theorem NegatingRight.exists_of (hu : NegatingRight op b) :
    ∃ y, b = .of y ∧ ∀ x, R.operate? op x y = some (-x) := by
  cases hu with
  | mul => exact ⟨-1, neg_ofNat_one, fun x ↦ congrArg some (mul_neg_one x)⟩
  | div =>
      refine ⟨-1, neg_ofNat_one, fun x ↦ operate?_div_eq_some_iff.mpr ⟨neg_ne_zero.mpr one_ne_zero, ?_⟩⟩
      rw [div_neg, div_one]

/-- Dropping a neutral operand keeps the meaning if no zero factor is dropped. -/
theorem means_dropNeutral (hzero : ¬ (op = .mul ∧ (l = num (.of 0) ∨ r = num (.of 0)))) :
    Means env (dropNeutral op l r) z ↔ Means env (bin op l r) z := by
  rw [dropNeutral_eq_settled]
  have hleaves := leaves_remainder op l r
  generalize remainder op l r = d at hleaves
  cases hleaves with
  | whole => rfl
  | zero hop hz =>
      rw [Bool.or_eq_true, isNum_zero_iff, isNum_zero_iff] at hz
      exact absurd ⟨hop, hz⟩ hzero
  | left hu hr =>
      obtain ⟨y, rfl, hy⟩ := hu.exists_of
      obtain rfl := isNum_of_iff.mp hr
      simp [Remainder.settled, means_bin, hy]
  | right hu hl =>
      obtain ⟨x, rfl, hx⟩ := hu.exists_of
      obtain rfl := isNum_of_iff.mp hl
      simp [Remainder.settled, means_bin, hx]
  | negateLeft hu hr =>
      obtain ⟨y, rfl, hy⟩ := hu.exists_of
      obtain rfl := isNum_of_iff.mp hr
      simp [Remainder.settled, means_bin, hy, neg_eq_iff_eq_neg]
  | negateRight hu hl =>
      obtain ⟨x, rfl, hx⟩ := hu.exists_of
      obtain rfl := isNum_of_iff.mp hl
      simp [Remainder.settled, means_bin, hx, neg_eq_iff_eq_neg]

/-- A fold is what the operation on the literals means. -/
theorem exists_means_of_fold? (env : Bindings R.Number) (h : fold? op l r = some w) :
    ∃ z, w = .of z ∧ Means env (bin op l r) z := by
  cases l with
  | num a =>
      cases r with
      | num b =>
          have hraw : foldRaw? op a b = (operate (bin op (num a) (num b)) op a b).toOption := by
            cases op with
            | div =>
                simp only [foldRaw?, operate]
                split_ifs <;> rfl
            | add | sub | mul | pow => rfl
          obtain ⟨hfold, hfinite⟩ := Option.filter_eq_some_iff.mp h
          obtain ⟨z, rfl⟩ := Number.isFinite_iff.mp hfinite
          rw [hraw] at hfold
          exact ⟨z, rfl, means_iff.mpr (eq_ok_of_toOption hfold)⟩
      | sym _ | neg _ | bin _ _ _ | call _ _ => cases h
  | sym _ | neg _ | bin _ _ _ | call _ _ => cases h

theorem Means.eq_zero_of_mul (h : Means env (bin .mul l r) z) (hzero : l = num (.of 0) ∨ r = num (.of 0)) :
    z = 0 := by
  obtain ⟨x, y, hx, hy, hz⟩ := means_bin.mp h
  obtain rfl : x * y = z := Option.some.inj hz
  rcases hzero with rfl | rfl
  · rw [← Number.of.inj (means_num.mp hx), zero_mul]
  · rw [← Number.of.inj (means_num.mp hy), mul_zero]

/-- A product with zero is zero, whatever the other factor is. -/
theorem join_mul_zero (hzero : l = num (.of 0) ∨ r = num (.of 0)) : join .mul l r = num (.of 0) := by
  unfold join
  split
  · next w hfold =>
    obtain ⟨z, rfl, hz⟩ := exists_means_of_fold? [] hfold
    rw [hz.eq_zero_of_mul hzero]
  · have hnum : (l.isNum (Scalar.ofNat 0) || r.isNum (Scalar.ofNat 0)) = true := by
      rwa [Bool.or_eq_true, isNum_zero_iff, isNum_zero_iff]
    simp only [dropNeutral, if_pos hnum]
    rw [Number.ofNat_zero]

/-- Joining simplified operands means what their operation does, but for a product with zero. -/
theorem means_join : Means env (join op l r) z ↔
    Means env (bin op l r) z ∨ op = .mul ∧ (l = num (.of 0) ∨ r = num (.of 0)) ∧ z = 0 := by
  by_cases hzero : op = .mul ∧ (l = num (.of 0) ∨ r = num (.of 0))
  · obtain ⟨rfl, hzero⟩ := hzero
    rw [join_mul_zero hzero, means_num, Number.of.injEq, eq_comm]
    exact ⟨fun hz ↦ .inr ⟨rfl, hzero, hz⟩, fun h ↦ h.elim (·.eq_zero_of_mul hzero) (·.2.2)⟩
  · rw [or_iff_left fun h ↦ hzero ⟨h.1, h.2.1⟩]
    unfold join
    split
    · next w hfold =>
      obtain ⟨z', rfl, hz'⟩ := exists_means_of_fold? env hfold
      rw [means_num, Number.of.injEq]
      constructor
      · rintro rfl
        exact hz'
      · exact hz'.unique
    · exact means_dropNeutral hzero

/-- Simplification keeps the meaning. -/
theorem Means.simplify (h : Means env e z) : Means env e.simplify z := by
  induction e generalizing z with
  | num a => exact h
  | sym s => exact h
  | neg e ih =>
      rw [simplify_neg, means_negated]
      exact ih (means_neg.mp h)
  | bin op l r ihl ihr =>
      obtain ⟨x, y, hx, hy, hz⟩ := means_bin.mp h
      rw [simplify_bin, means_join]
      exact .inl (means_bin.mpr ⟨x, y, ihl hx, ihr hy, hz⟩)
  | call f e ih =>
      obtain ⟨x, hx, hz⟩ := means_call.mp h
      rw [simplify_call]
      exact means_call.mpr ⟨x, ih hx, hz⟩

/-! ## Backwards -/

/-- No product hides a factor without a meaning: the right factor means a number, and so does the left one
unless that number is not zero. -/
def Solid (env : Bindings R.Number) : Expr R.Number → Prop
  | num _ => True
  | sym _ => True
  | neg e => e.Solid env
  | bin op l r =>
    l.Solid env ∧ r.Solid env ∧ (op = .mul → ∃ y, Means env r y ∧ (y = 0 → ∃ x, Means env l x))
  | call _ e => e.Solid env

theorem Means.solid (h : Means env e z) : e.Solid env := by
  induction e generalizing z with
  | num a => trivial
  | sym s => trivial
  | neg e ih => exact ih (means_neg.mp h)
  | bin op l r ihl ihr =>
      obtain ⟨x, y, hx, hy, -⟩ := means_bin.mp h
      exact ⟨ihl hx, ihr hy, fun _ ↦ ⟨y, hy, fun _ ↦ ⟨x, hx⟩⟩⟩
  | call f e ih =>
      obtain ⟨x, hx, -⟩ := means_call.mp h
      exact ih hx

/-- A solid expression means what it is simplified to. -/
theorem Solid.means (h : e.Solid env) (hz : Means env e.simplify z) : Means env e z := by
  induction e generalizing z with
  | num a => exact hz
  | sym s => exact hz
  | neg e ih =>
      rw [simplify_neg, means_negated] at hz
      exact means_neg.mpr (ih h hz)
  | bin op l r ihl ihr =>
      obtain ⟨hl, hr, hmul⟩ := h
      rw [simplify_bin, means_join] at hz
      rcases hz with hz | ⟨rfl, hzero, rfl⟩
      · obtain ⟨x, y, hx, hy, hz⟩ := means_bin.mp hz
        exact means_bin.mpr ⟨x, y, ihl hl hx, ihr hr hy, hz⟩
      · obtain ⟨y, hy, hleft⟩ := hmul rfl
        rcases hzero with hzero | hzero
        · have hx : Means env l 0 := ihl hl (by rw [hzero, means_num])
          exact means_bin.mpr ⟨0, y, hx, hy, by rw [operate?, zero_mul]⟩
        · have hy0 : Means env r 0 := ihr hr (by rw [hzero, means_num])
          obtain ⟨x, hx⟩ := hleft (hy.unique hy0)
          exact means_bin.mpr ⟨x, 0, hx, hy0, by rw [operate?, mul_zero]⟩
  | call f e ih =>
      obtain ⟨x, hx, hz⟩ := means_call.mp hz
      exact means_call.mpr ⟨x, ih h hx, hz⟩

/-- **Simplification keeps values**, whatever powers and functions are. -/
theorem value_simplify (h : e.value env = .ok w) : e.simplify.value env = .ok w := by
  obtain ⟨x, rfl, hx⟩ := value_eq_ok_iff_means.mp h
  exact hx.simplify

/-- An exponential with a first power, a sum and a difference around it. -/
noncomputable def padded : Expr real.Number :=
  num (.of 0) - (bin .pow (call .exp (sym "x")) (num (.of 1)) + num (.of 0))

noncomputable def atZero : Bindings real.Number := [("x", .of 0)]

/-- They all go, and the value at zero stays. -/
theorem value_simplify_padded :
    padded.value atZero = .ok (.of (-1)) ∧ padded.simplify = -call .exp (sym "x") ∧
      padded.simplify.value atZero = .ok (.of (-1)) := by
  have hexp : Means atZero (call .exp (sym "x")) 1 :=
    means_call.mpr ⟨0, means_sym.mpr rfl, real_call?_eq_some_iff.mpr ⟨trivial, Real.exp_zero⟩⟩
  have hpower : Means atZero (bin .pow (call .exp (sym "x")) (num (.of 1))) 1 :=
    means_bin.mpr ⟨1, 1, hexp, means_num.mpr rfl, real.power?_one 1⟩
  have hsum : Means atZero (bin .pow (call .exp (sym "x")) (num (.of 1)) + num (.of 0)) 1 :=
    means_bin.mpr ⟨1, 0, hpower, means_num.mpr rfl, congrArg some (add_zero 1)⟩
  have hvalue : padded.value atZero = .ok (.of (-1)) :=
    means_bin.mpr ⟨0, 1, means_num.mpr rfl, hsum, congrArg some (zero_sub 1)⟩
  refine ⟨hvalue, ?_, value_simplify hvalue⟩
  simp [padded, join, fold?, dropNeutral, negated, isNum, sub_def, add_def, neg_def]

end FormulaNet.Expr

import FormulaNet.Proofs.Expr.Value
import FormulaNet.Proofs.Expr.NormalForm

/-!
# Simplification keeps values

One lemma for each constructor of simplified expressions, in both directions.  Forwards, a node has its value
still after it has been simplified.  Backwards the value of the simplified node says less: it may have lost
an operand that had no value, as in a product with zero.  But where one operand is known to have a value (and
is not a zero factor), the other can be recovered, and this is what solving an equation rests on.
-/

namespace FormulaNet.Expr

open Scalar (Exact)

variable {ν : Type} [Exact ν] {env : Bindings ν} {e l r : Expr ν} {op : Operator} {x y z : ν}

/-! ## Literals and negation -/

theorem isNum_iff : e.isNum x = true ↔ e = num x := by
  cases e with
  | num y => simp [isNum, Exact.same_iff]
  | _ => simp [isNum]

/-- A simplified negation has a value where the expression has the opposite one. -/
@[simp] theorem rawValue_negated : rawValue env (negated e) = .ok z ↔ rawValue env e = .ok (-z) := by
  cases e with
  | num x =>
      simp only [negated, rawValue_num, Except.ok.injEq]
      exact neg_eq_iff_eq_neg
  | neg e =>
      rw [negated, rawValue_neg_iff, neg_neg]
  | sym s => exact rawValue_neg_iff
  | bin op l r => exact rawValue_neg_iff
  | call f e => exact rawValue_neg_iff

theorem fold?_eq_some : fold? op l r = some z ↔ ∃ x y, l = num x ∧ r = num y ∧ op.Yields x y z := by
  have hfold : ∀ x y : ν, (foldRaw? op x y).filter Scalar.isFinite = some z ↔ op.Yields x y z := by
    intro x y
    rw [Option.filter_eq_some_iff]
    simp only [Exact.isFinite_eq, and_true]
    cases op with
    | div =>
        rw [foldRaw?, Operator.Yields]
        split
        · next hy => simp [same_ofNat_zero.mp hy]
        · next hy =>
          rw [same_ofNat_zero] at hy
          simp [hy]
    | add | sub | mul | pow => simp [foldRaw?, Operator.Yields]
  cases l with
  | num x =>
      cases r with
      | num y => simp [fold?, hfold]
      | _ => simp [fold?]
  | _ => simp [fold?]

/-- The value of a joined node is that of a literal, or of what is left once a neutral operand is gone. -/
theorem rawValue_join : rawValue env (join op l r) = .ok z ↔
    (∃ x y, l = num x ∧ r = num y ∧ op.Yields x y z) ∨
      fold? op l r = none ∧ rawValue env (dropNeutral op l r) = .ok z := by
  unfold join
  cases hf : fold? op l r with
  | none =>
      simp only [true_and, iff_or_self]
      intro h
      rw [fold?_eq_some.mpr h] at hf
      cases hf
  | some w =>
      simp only [rawValue_num, Except.ok.injEq, reduceCtorEq, false_and, or_false]
      rw [← fold?_eq_some, hf, Option.some.injEq]

/-- What dropping a neutral operand leaves.  The left or right operand goes if the operation with it leaves
the other operand as it is, or negates it; a product with zero is zero. -/
inductive Dropped (op : Operator) (l r : Expr ν) : Expr ν → Prop
  | keep : Dropped op l r (bin op l r)
  | zero : op = .mul → l = num 0 ∨ r = num 0 → Dropped op l r (num 0)
  | left {u : ν} : l = num u → (∀ y z, op.Yields u y z ↔ y = z) → Dropped op l r r
  | right {u : ν} : r = num u → (∀ x z, op.Yields x u z ↔ x = z) → Dropped op l r l
  | negLeft {u : ν} : l = num u → (∀ y z, op.Yields u y z ↔ -y = z) → Dropped op l r (negated r)
  | negRight {u : ν} : r = num u → (∀ x z, op.Yields x u z ↔ -x = z) → Dropped op l r (negated l)

theorem NeutralLeft.yields (hu : NeutralLeft op x) (y z : ν) : op.Yields x y z ↔ y = z := by
  cases hu <;> simp [Operator.Yields]

theorem NeutralRight.yields (hu : NeutralRight op y) (x z : ν) : op.Yields x y z ↔ x = z := by
  cases hu <;> simp [Operator.Yields, Exact.power_one]

theorem NegatingLeft.yields (hu : NegatingLeft op x) (y z : ν) : op.Yields x y z ↔ -y = z := by
  cases hu <;> simp [Operator.Yields]

theorem NegatingRight.yields (hu : NegatingRight op y) (x z : ν) : op.Yields x y z ↔ -x = z := by
  cases hu <;> simp [Operator.Yields, div_neg]

theorem dropped_dropNeutral : Dropped op l r (dropNeutral op l r) := by
  rw [dropNeutral_eq_settled]
  have hleaves := leaves_remainder op l r
  generalize remainder op l r = d at hleaves
  cases hleaves with
  | whole => exact .keep
  | zero hop hzero =>
      rw [Scalar.ofNat_zero] at hzero ⊢
      exact .zero hop (by simpa [isNum_iff] using hzero)
  | left hu hr => exact .right (isNum_iff.mp hr) hu.yields
  | right hu hl => exact .left (isNum_iff.mp hl) hu.yields
  | negateLeft hu hr => exact .negRight (isNum_iff.mp hr) hu.yields
  | negateRight hu hl => exact .negLeft (isNum_iff.mp hl) hu.yields

/-! ## Forwards -/

/-- Joining simplified operands keeps the value of the operation. -/
theorem rawValue_join_of_yields (hx : rawValue env l = .ok x) (hy : rawValue env r = .ok y)
    (h : op.Yields x y z) : rawValue env (join op l r) = .ok z := by
  refine rawValue_join.mpr ?_
  cases hf : fold? op l r with
  | some w =>
      obtain ⟨x', y', rfl, rfl, hw⟩ := fold?_eq_some.mp hf
      cases hx
      cases hy
      exact .inl ⟨x, y, rfl, rfl, h⟩
  | none =>
      refine .inr ⟨rfl, ?_⟩
      generalize hd : dropNeutral op l r = d
      have hdropped : Dropped op l r d := hd ▸ dropped_dropNeutral
      clear hd hf
      cases hdropped with
      | keep => exact rawValue_bin_iff.mpr ⟨x, y, hx, hy, h⟩
      | zero hop hzero =>
          subst hop
          rcases hzero with rfl | rfl
          · obtain rfl := Except.ok.inj hx
            simpa [Operator.Yields] using h
          · obtain rfl := Except.ok.inj hy
            simpa [Operator.Yields] using h
      | left hu hneutral =>
          subst hu
          obtain rfl := Except.ok.inj hx
          rw [hy, (hneutral y z).mp h]
      | right hu hneutral =>
          subst hu
          obtain rfl := Except.ok.inj hy
          rw [hx, (hneutral x z).mp h]
      | negLeft hu hneutral =>
          subst hu
          obtain rfl := Except.ok.inj hx
          rw [rawValue_negated, hy, ← (hneutral y z).mp h, neg_neg]
      | negRight hu hneutral =>
          subst hu
          obtain rfl := Except.ok.inj hy
          rw [rawValue_negated, hx, ← (hneutral x z).mp h, neg_neg]

/-- **Simplification keeps values.** -/
theorem rawValue_simplify (h : rawValue env e = .ok z) : rawValue env e.simplify = .ok z := by
  induction e generalizing z with
  | num x => exact h
  | sym s => exact h
  | neg e ih =>
      rw [simplify_neg, rawValue_negated]
      exact ih (rawValue_neg_iff.mp h)
  | bin op l r ihl ihr =>
      obtain ⟨x, y, hx, hy, hz⟩ := rawValue_bin_iff.mp h
      rw [simplify_bin]
      exact rawValue_join_of_yields (ihl hx) (ihr hy) hz
  | call f e ih =>
      obtain ⟨x, hx, hz⟩ := rawValue_call_eq_ok_iff.mp h
      rw [simplify_call]
      exact rawValue_call_eq_ok_iff.mpr ⟨x, ih hx, hz⟩

/-! ## Backwards -/

/-- The left operand has the value that the operation needs, if the right one is no zero factor. -/
theorem exists_left_of_join (h : rawValue env (join op l r) = .ok z) (hy : rawValue env r = .ok y)
    (hne : op = .mul → y ≠ 0) : ∃ x, rawValue env l = .ok x ∧ op.Yields x y z := by
  rcases rawValue_join.mp h with ⟨x, y', rfl, rfl, hz⟩ | ⟨-, hdrop⟩
  · obtain rfl := Except.ok.inj hy
    exact ⟨x, rfl, hz⟩
  · generalize hd : dropNeutral op l r = d at hdrop
    have hdropped : Dropped op l r d := hd ▸ dropped_dropNeutral
    clear hd
    cases hdropped with
    | keep =>
        obtain ⟨x, y', hx, hy', hz⟩ := rawValue_bin_iff.mp hdrop
        rw [hy] at hy'
        cases hy'
        exact ⟨x, hx, hz⟩
    | zero hop hzero =>
        subst hop
        obtain rfl := Except.ok.inj hdrop
        rcases hzero with rfl | rfl
        · exact ⟨0, rfl, zero_mul y⟩
        · exact absurd (Except.ok.inj hy).symm (hne rfl)
    | left hu hneutral =>
        subst hu
        rw [hy] at hdrop
        exact ⟨_, rfl, (hneutral y z).mpr (Except.ok.inj hdrop)⟩
    | right hu hneutral =>
        subst hu
        obtain rfl := Except.ok.inj hy
        exact ⟨z, hdrop, (hneutral z z).mpr rfl⟩
    | negLeft hu hneutral =>
        subst hu
        rw [rawValue_negated, hy] at hdrop
        exact ⟨_, rfl, (hneutral y z).mpr (by rw [Except.ok.inj hdrop, neg_neg])⟩
    | negRight hu hneutral =>
        subst hu
        obtain rfl := Except.ok.inj hy
        rw [rawValue_negated] at hdrop
        exact ⟨-z, hdrop, (hneutral (-z) z).mpr (neg_neg z)⟩

/-- The right operand has the value that the operation needs, if the left one is no zero factor. -/
theorem exists_right_of_join (h : rawValue env (join op l r) = .ok z) (hx : rawValue env l = .ok x)
    (hne : op = .mul → x ≠ 0) : ∃ y, rawValue env r = .ok y ∧ op.Yields x y z := by
  rcases rawValue_join.mp h with ⟨x', y, rfl, rfl, hz⟩ | ⟨-, hdrop⟩
  · obtain rfl := Except.ok.inj hx
    exact ⟨y, rfl, hz⟩
  · generalize hd : dropNeutral op l r = d at hdrop
    have hdropped : Dropped op l r d := hd ▸ dropped_dropNeutral
    clear hd
    cases hdropped with
    | keep =>
        obtain ⟨x', y, hx', hy, hz⟩ := rawValue_bin_iff.mp hdrop
        rw [hx] at hx'
        cases hx'
        exact ⟨y, hy, hz⟩
    | zero hop hzero =>
        subst hop
        obtain rfl := Except.ok.inj hdrop
        rcases hzero with rfl | rfl
        · exact absurd (Except.ok.inj hx).symm (hne rfl)
        · exact ⟨0, rfl, mul_zero x⟩
    | left hu hneutral =>
        subst hu
        obtain rfl := Except.ok.inj hx
        exact ⟨z, hdrop, (hneutral z z).mpr rfl⟩
    | right hu hneutral =>
        subst hu
        rw [hx] at hdrop
        exact ⟨_, rfl, (hneutral x z).mpr (Except.ok.inj hdrop)⟩
    | negLeft hu hneutral =>
        subst hu
        obtain rfl := Except.ok.inj hx
        rw [rawValue_negated] at hdrop
        exact ⟨-z, hdrop, (hneutral (-z) z).mpr (neg_neg z)⟩
    | negRight hu hneutral =>
        subst hu
        rw [rawValue_negated, hx] at hdrop
        exact ⟨_, rfl, (hneutral x z).mpr (by rw [Except.ok.inj hdrop, neg_neg])⟩

end FormulaNet.Expr

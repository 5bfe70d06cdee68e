import FormulaNet.Proofs.Exact
import FormulaNet.Proofs.Except
import FormulaNet.Expr.Value

/-!
# Evaluation

When an expression has a value, taken apart node by node.  Over exact scalars an operation fails only for a
zero divisor; `Operator.Yields` is the operation as a relation.
-/

namespace FormulaNet

namespace Expr

variable {ν : Type} [Scalar ν] {env env' : Bindings ν} {e l r : Expr ν} {op : Operator} {x z : ν}

theorem rawValue_neg_eq_ok_iff :
    rawValue env (neg e) = .ok z ↔ ∃ x, rawValue env e = .ok x ∧ -x = z := by
  rw [rawValue, map_eq_ok_iff]

theorem rawValue_bin_eq_ok_iff :
    rawValue env (bin op l r) = .ok z ↔ ∃ x, rawValue env l = .ok x ∧ ∃ y, rawValue env r = .ok y ∧
      operate (bin op l r) op x y = .ok z := by
  rw [rawValue]
  simp only [bind_eq_ok_iff]

theorem rawValue_call_eq_ok_iff {f : Function} :
    rawValue env (call f e) = .ok z ↔ ∃ x, rawValue env e = .ok x ∧ callFunction f x = .ok z := by
  rw [rawValue, bind_eq_ok_iff]

theorem value_eq_ok_iff : e.value env = .ok x ↔ rawValue env e = .ok x ∧ Scalar.isFinite x = true := by
  rw [value, bind_eq_ok_iff]
  constructor
  · rintro ⟨y, hy, h⟩
    split at h
    · next hfinite =>
      cases h
      exact ⟨hy, hfinite⟩
    · cases h
  · rintro ⟨hx, hfinite⟩
    exact ⟨x, hx, if_pos hfinite⟩

/-- A value does not depend on what else is bound. -/
theorem rawValue_mono (h : ∀ s x, e.count s ≠ 0 → symbolValue env s = .ok x → symbolValue env' s = .ok x)
    (hz : rawValue env e = .ok z) : rawValue env' e = .ok z := by
  induction e generalizing z with
  | num y => exact hz
  | sym s => exact h s z (by simp) hz
  | neg e ih =>
      obtain ⟨x, hx, rfl⟩ := rawValue_neg_eq_ok_iff.mp hz
      exact rawValue_neg_eq_ok_iff.mpr ⟨x, ih (fun s x hs ↦ h s x hs) hx, rfl⟩
  | bin op l r ihl ihr =>
      obtain ⟨x, hx, y, hy, hz⟩ := rawValue_bin_eq_ok_iff.mp hz
      refine rawValue_bin_eq_ok_iff.mpr ⟨x, ihl (fun s x hs ↦ h s x ?_) hx, y,
        ihr (fun s x hs ↦ h s x ?_) hy, hz⟩
      · rw [count_bin]
        omega
      · rw [count_bin]
        omega
  | call f e ih =>
      obtain ⟨x, hx, hz⟩ := rawValue_call_eq_ok_iff.mp hz
      exact rawValue_call_eq_ok_iff.mpr ⟨x, ih (fun s x hs ↦ h s x hs) hx, hz⟩

/-- An expression has a value only if all its symbols have. -/
theorem exists_symbolValue {s : String} (hz : rawValue env e = .ok z) (hs : e.count s ≠ 0) :
    ∃ x, symbolValue env s = .ok x := by
  induction e generalizing z with
  | num y => exact absurd rfl hs
  | sym t =>
      obtain rfl : t = s := by
        by_contra hts
        exact hs (if_neg hts)
      exact ⟨z, hz⟩
  | neg e ih =>
      obtain ⟨x, hx, -⟩ := rawValue_neg_eq_ok_iff.mp hz
      exact ih hx hs
  | bin op l r ihl ihr =>
      obtain ⟨x, hx, y, hy, -⟩ := rawValue_bin_eq_ok_iff.mp hz
      rw [count_bin] at hs
      by_cases hl : l.count s = 0
      · exact ihr hy (by omega)
      · exact ihl hx hl
  | call f e ih =>
      obtain ⟨x, hx, -⟩ := rawValue_call_eq_ok_iff.mp hz
      exact ih hx hs

end Expr

/-! ## Exact values -/

open Scalar (Exact)

/-- The operation applied to two values yields a third; a quotient needs a divisor other than zero. -/
def Operator.Yields {ν : Type} [Exact ν] (op : Operator) (x y z : ν) : Prop :=
  match op with
  | .add => x + y = z
  | .sub => x - y = z
  | .mul => x * y = z
  | .div => y ≠ 0 ∧ x / y = z
  | .pow => Scalar.pow x y = z

namespace Expr

variable {ν : Type} [Exact ν] {env : Bindings ν} {e l r : Expr ν} {op : Operator} {x y z : ν}

@[simp] theorem same_ofNat_zero : Scalar.same y (Scalar.ofNat 0) = true ↔ y = 0 := by
  rw [Exact.same_iff, Scalar.ofNat_zero]

theorem operate_eq_ok_iff {whole : Expr ν} : operate whole op x y = .ok z ↔ op.Yields x y z := by
  cases op with
  | div =>
      rw [operate, Operator.Yields]
      split
      · next hy => simp [same_ofNat_zero.mp hy]
      · next hy =>
        rw [same_ofNat_zero] at hy
        simp only [Except.ok.injEq, hy, ne_eq, not_false_eq_true, true_and]
  | add | sub | mul | pow => simp only [operate, Operator.Yields, Except.ok.injEq]

theorem rawValue_bin_iff :
    rawValue env (bin op l r) = .ok z ↔
      ∃ x y, rawValue env l = .ok x ∧ rawValue env r = .ok y ∧ op.Yields x y z := by
  simp only [rawValue_bin_eq_ok_iff, operate_eq_ok_iff]
  constructor
  · rintro ⟨x, hx, y, hy, hz⟩
    exact ⟨x, y, hx, hy, hz⟩
  · rintro ⟨x, y, hx, hy, hz⟩
    exact ⟨x, hx, y, hy, hz⟩

theorem rawValue_neg_iff : rawValue env (neg e) = .ok z ↔ rawValue env e = .ok (-z) := by
  rw [rawValue_neg_eq_ok_iff]
  constructor
  · rintro ⟨x, hx, rfl⟩
    rw [hx]
    exact congrArg Except.ok (neg_neg x).symm
  · intro h
    exact ⟨-z, h, neg_neg z⟩

theorem value_iff : e.value env = .ok x ↔ rawValue env e = .ok x := by
  rw [value_eq_ok_iff, Exact.isFinite_eq]
  exact and_iff_left rfl

end Expr

end FormulaNet

import FormulaNet.Proofs.Except
import FormulaNet.Proofs.Exact
import FormulaNet.Expr.Value
import Mathlib.Tactic.Ring

/-!
# Equivalent expressions

Two expressions are equivalent if they evaluate alike in every exact arithmetic: to the same value, or to
errors that differ at most in the expression that they quote.  Literals pass into the arithmetic by any map
that keeps signs; powers, functions and the tests of numbers are left open.

Equivalence is a congruence.  A sum may be regrouped to the left, and so may a product: what is evaluated,
and in which order, stays the same.
-/

namespace FormulaNet

/-- The problem without the text of the expression that it is about. -/
def EvaluationProblem.unquoted : EvaluationProblem → EvaluationProblem
  | zeroDivisor _ => zeroDivisor ""
  | outsideDomain f argument => outsideDomain f argument
  | notFinite _ value => notFinite "" value

/-- The error without the text of an expression.  It is of the same kind. -/
def Error.unquoted : Error → Error
  | evaluation problem => evaluation problem.unquoted
  | error => error

/-- Scalars whose arithmetic is that of a field.  What powers, functions, literals and tests are is left
open. -/
class Scalar.Lawful (κ : Type) extends Scalar κ, Field κ

/-- Exact scalars are lawful. -/
@[reducible] def Scalar.Exact.toLawful (κ : Type) [Scalar.Exact κ] : Scalar.Lawful κ where

namespace Expr

/-- The expression with its literals mapped. -/
def map {ν κ : Type} (φ : ν → κ) : Expr ν → Expr κ
  | num x => num (φ x)
  | sym s => sym s
  | neg e => neg (e.map φ)
  | bin op l r => bin op (l.map φ) (r.map φ)
  | call f e => call f (e.map φ)

/-! ## Outcomes -/

section Outcome

variable {κ : Type} [Scalar κ] {env : Bindings κ} {op : Operator} {l l' r r' e e' : Expr κ}

/-- The value, finite or not, or the error. -/
def rawOutcome (env : Bindings κ) (e : Expr κ) : Except Error κ := (e.rawValue env).mapError Error.unquoted

/-- The value or the error. -/
def outcome (env : Bindings κ) (e : Expr κ) : Except Error κ := (e.value env).mapError Error.unquoted

/-- An operation, whatever expression a zero divisor is reported in. -/
def operation (op : Operator) (x y : κ) : Except Error κ :=
  (operate (num x) op x y).mapError Error.unquoted

theorem mapError_operate (whole : Expr κ) (op : Operator) (x y : κ) :
    (operate whole op x y).mapError Error.unquoted = operation op x y := by
  cases op with
  | div =>
      unfold operation operate
      dsimp only
      split <;> rfl
  | add | sub | mul | pow => rfl

theorem rawOutcome_neg : rawOutcome env (neg e) = (rawOutcome env e).map (- ·) := by
  rw [rawOutcome, rawValue, mapError_map]
  rfl

theorem rawOutcome_bin : rawOutcome env (bin op l r) =
    rawOutcome env l >>= fun x ↦ rawOutcome env r >>= fun y ↦ operation op x y := by
  simp only [rawOutcome, rawValue, mapError_bind, mapError_operate]

theorem rawOutcome_call {f : Function} : rawOutcome env (call f e) =
    rawOutcome env e >>= fun x ↦ (callFunction f x).mapError Error.unquoted := by
  simp only [rawOutcome, rawValue, mapError_bind]

/-- Only the quoted expression of an error depends on more than the value. -/
theorem outcome_congr (h : rawOutcome env e = rawOutcome env e') : outcome env e = outcome env e' := by
  have hfinish : ∀ (e : Expr κ) (x : κ),
      (if Scalar.isFinite x then (.ok x : Except Error κ)
        else .error (.evaluation (.notFinite e.print (Scalar.text x)))).mapError Error.unquoted =
      if Scalar.isFinite x then .ok x else .error (.evaluation (.notFinite "" (Scalar.text x))) := by
    intro e x
    split <;> rfl
  simp only [outcome, value, mapError_bind, hfinish]
  exact congrArg (· >>= _) h

end Outcome

/-! ## Equivalence -/

/-- The expressions evaluate alike in every exact arithmetic. -/
def Equivalent {ν : Type} [Neg ν] (e e' : Expr ν) : Prop :=
  ∀ (κ : Type) [Scalar.Lawful κ] (φ : ν → κ), (∀ x, φ (-x) = -φ x) → ∀ env : Bindings κ,
    rawOutcome env (e.map φ) = rawOutcome env (e'.map φ)

namespace Equivalent

variable {ν : Type} [Neg ν] {op : Operator} {l l' r r' e e' e'' : Expr ν}

theorem refl (e : Expr ν) : Equivalent e e := fun _ _ _ _ _ ↦ rfl

theorem symm (h : Equivalent e e') : Equivalent e' e := fun κ _ φ hφ env ↦ (h κ φ hφ env).symm

theorem trans (h : Equivalent e e') (h' : Equivalent e' e'') : Equivalent e e'' :=
  fun κ _ φ hφ env ↦ (h κ φ hφ env).trans (h' κ φ hφ env)

theorem neg (h : Equivalent e e') : Equivalent (neg e) (Expr.neg e') := by
  intro κ _ φ hφ env
  simp only [map, rawOutcome_neg, h κ φ hφ env]

theorem bin (hl : Equivalent l l') (hr : Equivalent r r') : Equivalent (bin op l r) (Expr.bin op l' r') := by
  intro κ _ φ hφ env
  simp only [map, rawOutcome_bin, hl κ φ hφ env, hr κ φ hφ env]

theorem call {f : Function} (h : Equivalent e e') : Equivalent (call f e) (Expr.call f e') := by
  intro κ _ φ hφ env
  simp only [map, rawOutcome_call, h κ φ hφ env]

/-- The value of a literal takes over its sign. -/
theorem num_neg (x : ν) : Equivalent (num (-x)) (Expr.neg (num x)) := by
  intro κ _ φ hφ env
  simp only [map, rawOutcome_neg, hφ x]
  rfl

end Equivalent

variable {op op' : Operator}

/-- A sum, or a product, followed by an operator of its rank may be done from left to right. -/
theorem operation_regroup {κ : Type} [Scalar.Lawful κ] (hop : op = .add ∨ op = .mul)
    (hrank : op'.rank = op.rank) (x y z : κ) :
    (operation op x y >>= fun w ↦ operation op' w z) =
      operation op' y z >>= fun w ↦ operation op x w := by
  rcases hop with rfl | rfl
  · cases op' with
    | add => exact congrArg Except.ok (add_assoc x y z)
    | sub => exact congrArg Except.ok (add_sub_assoc x y z)
    | mul | div | pow => cases hrank
  · cases op' with
    | mul => exact congrArg Except.ok (mul_assoc x y z)
    | div =>
        unfold operation operate
        dsimp only
        split
        · rfl
        · exact congrArg Except.ok (mul_div_assoc x y z)
    | add | sub | pow => cases hrank

theorem Equivalent.regroup {ν : Type} [Neg ν] (hop : op = .add ∨ op = .mul) (hrank : op'.rank = op.rank)
    (a b c : Expr ν) : Equivalent (Expr.bin op' (Expr.bin op a b) c) (Expr.bin op a (Expr.bin op' b c)) := by
  intro κ _ φ _ env
  simp only [map, rawOutcome_bin, bind_assoc]
  refine bind_congr fun x ↦ bind_congr fun y ↦ ?_
  -- the first operation does not fail, so it may be put off until the third operand has been evaluated
  obtain ⟨w, hw⟩ : ∃ w, operation op x y = .ok w := by
    rcases hop with rfl | rfl <;> exact ⟨_, rfl⟩
  have hz : ∀ z, operation op' w z = operation op' y z >>= fun w ↦ operation op x w := by
    intro z
    rw [← operation_regroup hop hrank x y z, hw]
    rfl
  rw [hw]
  exact bind_congr hz

end Expr

end FormulaNet

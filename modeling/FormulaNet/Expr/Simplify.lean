import FormulaNet.Expr.Basic

/-!
# Simplification

From the leaves up, operations on literals are folded and neutral operands are dropped.  A fold whose
result is not finite is left standing, so that evaluation reports it.  A product with zero becomes zero
whatever the other factor is.
-/

namespace FormulaNet.Expr

variable {ν : Type} [Scalar ν]

/-- Whether the expression is a literal numerically equal to `x`. -/
def isNum (x : ν) : Expr ν → Bool
  | num y => Scalar.same y x
  | _ => false

/-- The negation of a simplified expression, simplified. -/
def negated : Expr ν → Expr ν
  | num x => num (-x)
  | neg e => e
  | e => neg e

/-- An operation on two literals; a zero divisor is not folded. -/
def foldRaw? (op : Operator) (x y : ν) : Option ν :=
  match op with
  | .add => some (x + y)
  | .sub => some (x - y)
  | .mul => some (x * y)
  | .div => if Scalar.same y (Scalar.ofNat 0) then none else some (x / y)
  | .pow => some (Scalar.pow x y)

def fold? (op : Operator) : Expr ν → Expr ν → Option ν
  | num x, num y => (foldRaw? op x y).filter Scalar.isFinite
  | _, _ => none

/-- Drops a neutral operand, from simplified operands. -/
def dropNeutral (op : Operator) (l r : Expr ν) : Expr ν :=
  let zero := Scalar.ofNat 0
  let one := Scalar.ofNat 1
  match op with
  | .add => if l.isNum zero then r else if r.isNum zero then l else bin .add l r
  | .sub => if r.isNum zero then l else if l.isNum zero then negated r else bin .sub l r
  | .mul =>
    if l.isNum zero || r.isNum zero then num zero
    else if l.isNum one then r
    else if r.isNum one then l
    else if l.isNum (-one) then negated r
    else if r.isNum (-one) then negated l
    else bin .mul l r
  | .div => if r.isNum one then l else if r.isNum (-one) then negated l else bin .div l r
  | .pow => if r.isNum one then l else bin .pow l r

/-- Joins two simplified operands. -/
def join (op : Operator) (l r : Expr ν) : Expr ν :=
  match fold? op l r with
  | some x => num x
  | none => dropNeutral op l r

def simplify : Expr ν → Expr ν
  | num x => num x
  | sym s => sym s
  | neg e => negated (simplify e)
  | bin op l r => join op (simplify l) (simplify r)
  | call f e => call f (simplify e)

@[simp] theorem simplify_num (x : ν) : simplify (num x) = num x := rfl
@[simp] theorem simplify_sym (s : String) : simplify (sym s : Expr ν) = sym s := rfl
@[simp] theorem simplify_neg (e : Expr ν) : simplify (neg e) = negated (simplify e) := rfl
@[simp] theorem simplify_bin (op : Operator) (l r : Expr ν) :
    simplify (bin op l r) = join op (simplify l) (simplify r) := rfl
@[simp] theorem simplify_call (f : Function) (e : Expr ν) :
    simplify (call f e) = call f (simplify e) := rfl

end FormulaNet.Expr

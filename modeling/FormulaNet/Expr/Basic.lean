import FormulaNet.Scalar

/-!
# Expressions and equations

An expression is a tree of numbers, symbols, negations, binary operations and calls; an equation is a
pair of expressions.  Trees are kept as they were written: nothing here rearranges or folds.
-/

namespace FormulaNet

inductive Operator where
  | add | sub | mul | div | pow
  deriving DecidableEq, Repr

inductive Expr (ν : Type) where
  | num (value : ν)
  | sym (name : String)
  | neg (operand : Expr ν)
  | bin (op : Operator) (left right : Expr ν)
  | call (f : Function) (argument : Expr ν)
  deriving DecidableEq, Repr

structure Equation (ν : Type) where
  lhs : Expr ν
  rhs : Expr ν
  deriving DecidableEq, Repr

namespace Operator

def sign : Operator → String
  | add => "+"
  | sub => "-"
  | mul => "*"
  | div => "/"
  | pow => "^"

end Operator

namespace Expr

variable {ν : Type}

instance : Add (Expr ν) := ⟨bin .add⟩
instance : Sub (Expr ν) := ⟨bin .sub⟩
instance : Mul (Expr ν) := ⟨bin .mul⟩
instance : Div (Expr ν) := ⟨bin .div⟩
instance : Neg (Expr ν) := ⟨neg⟩

theorem add_def (a b : Expr ν) : a + b = bin .add a b := rfl
theorem sub_def (a b : Expr ν) : a - b = bin .sub a b := rfl
theorem mul_def (a b : Expr ν) : a * b = bin .mul a b := rfl
theorem div_def (a b : Expr ν) : a / b = bin .div a b := rfl
theorem neg_def (a : Expr ν) : -a = neg a := rfl

/-- How often a symbol occurs. -/
def count (name : String) : Expr ν → Nat
  | num _ => 0
  | sym s => if s = name then 1 else 0
  | neg e => count name e
  | bin _ l r => count name l + count name r
  | call _ e => count name e

def contains (name : String) (e : Expr ν) : Bool := 0 < e.count name

/-- The number that a literal is. -/
def number? : Expr ν → Option ν
  | num x => some x
  | _ => none

@[simp] theorem count_num (s : String) (x : ν) : (num x).count s = 0 := rfl
@[simp] theorem count_sym (s t : String) : (sym t : Expr ν).count s = if t = s then 1 else 0 := rfl
@[simp] theorem count_neg (s : String) (e : Expr ν) : (neg e).count s = e.count s := rfl
@[simp] theorem count_bin (s : String) (o : Operator) (l r : Expr ν) :
    (bin o l r).count s = l.count s + r.count s := rfl
@[simp] theorem count_call (s : String) (f : Function) (e : Expr ν) :
    (call f e).count s = e.count s := rfl

theorem contains_iff {s : String} {e : Expr ν} : e.contains s = true ↔ e.count s ≠ 0 := by
  simp [contains, Nat.pos_iff_ne_zero]

theorem contains_eq_false_iff {s : String} {e : Expr ν} : e.contains s = false ↔ e.count s = 0 := by
  simp [contains]

@[simp] theorem number?_num (x : ν) : (num x).number? = some x := rfl

theorem number?_eq_some_iff {e : Expr ν} {x : ν} : e.number? = some x ↔ e = num x := by
  cases e <;> simp [number?]

end Expr

namespace Equation

variable {ν : Type}

/-- The difference of the sides, which is zero where the equation holds. -/
def zeroForm (q : Equation ν) : Expr ν := q.lhs - q.rhs

def flip (q : Equation ν) : Equation ν := ⟨q.rhs, q.lhs⟩

@[simp] theorem flip_flip (q : Equation ν) : q.flip.flip = q := rfl

@[simp] theorem count_zeroForm (s : String) (q : Equation ν) :
    q.zeroForm.count s = q.lhs.count s + q.rhs.count s := rfl

end Equation

end FormulaNet

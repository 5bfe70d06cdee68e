import FormulaNet.Error
import FormulaNet.Expr.Printer

/-!
# The value of an expression

`Expr.value` evaluates under bindings of the symbols, from left to right, and stops at the first symbol
without a value, zero divisor or call outside the domain.  A value that is not finite is an error too.
-/

namespace FormulaNet

/-- Values of symbols; of two for the same symbol the front one counts. -/
abbrev Bindings (ν : Type) := List (String × ν)

namespace Expr

variable {ν : Type} [Scalar ν]

/-- The value of a symbol; `pi` has one of its own unless it is bound. -/
def symbolValue (env : Bindings ν) (name : String) : Except Error ν :=
  match env.lookup name with
  | some x => .ok x
  | none => if name = "pi" then .ok Scalar.pi else .error (.missingVariable name)

/-- One operation; `whole` is the expression a zero divisor is reported in. -/
def operate (whole : Expr ν) (op : Operator) (x y : ν) : Except Error ν :=
  match op with
  | .add => .ok (x + y)
  | .sub => .ok (x - y)
  | .mul => .ok (x * y)
  | .div =>
    if Scalar.same y (Scalar.ofNat 0) then .error (.evaluation (.zeroDivisor whole.print))
    else .ok (x / y)
  | .pow => .ok (Scalar.pow x y)

def callFunction (f : Function) (x : ν) : Except Error ν :=
  let y := Scalar.apply f x
  if Scalar.isUndefined y then .error (.evaluation (.outsideDomain f (Scalar.text x))) else .ok y

/-- The value, finite or not. -/
def rawValue (env : Bindings ν) : Expr ν → Except Error ν
  | num x => .ok x
  | sym s => symbolValue env s
  | neg e => (rawValue env e).map (- ·)
  | bin op l r => do
    let x ← rawValue env l
    let y ← rawValue env r
    operate (bin op l r) op x y
  | call f e => do callFunction f (← rawValue env e)

def value (env : Bindings ν) (e : Expr ν) : Except Error ν := do
  let x ← rawValue env e
  if Scalar.isFinite x then .ok x
  else .error (.evaluation (.notFinite e.print (Scalar.text x)))

@[simp] theorem rawValue_num (env : Bindings ν) (x : ν) : rawValue env (num x) = .ok x := rfl
@[simp] theorem rawValue_sym (env : Bindings ν) (s : String) :
    rawValue env (sym s) = symbolValue env s := rfl

end Expr

end FormulaNet

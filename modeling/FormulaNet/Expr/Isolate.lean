import FormulaNet.Error
import FormulaNet.Expr.Printer
import FormulaNet.Expr.Simplify

/-!
# Solving an equation for a symbol

A target that occurs once is isolated: the side that holds it is peeled one operation at a time, and the
other side takes the inverse operation.  A target that occurs more often is collected: the difference of
the sides is brought into the form `a * target + b`, and the solution is `-b / a`.  Anything else has no
solution here, and so has an absolute value around the target.  Solutions are simplified.
-/

namespace FormulaNet

namespace Expr

variable {ν : Type} [Scalar ν]

/-- The `x` with `x op rest = other`. -/
def undoLeft (op : Operator) (other rest : Expr ν) : Option (Expr ν) :=
  let one := Scalar.ofNat 1
  match op with
  | .add => some (other - rest)
  | .sub => some (other + rest)
  | .mul => some (other / rest)
  | .div => some (other * rest)
  | .pow =>
    match rest.number? with
    | some n =>
      if Scalar.same n (Scalar.ofNat 2) then some (call .sqrt other)
      else if Scalar.same n (Scalar.ofNat 0) then none
      else some (bin .pow other (num (one / n)))
    | none => some (bin .pow other (num one / rest))

/-- The `x` with `rest op x = other`. -/
def undoRight (op : Operator) (other rest : Expr ν) : Option (Expr ν) :=
  match op with
  | .add => some (other - rest)
  | .sub => some (rest - other)
  | .mul => some (other / rest)
  | .div => some (rest / other)
  | .pow => some (call .ln other / call .ln rest)

/-- The `x` with `f x = other`; an absolute value has two, so it has none here. -/
def undoCall (f : Function) (other : Expr ν) : Option (Expr ν) :=
  match f with
  | .sqrt => some (bin .pow other (num (Scalar.ofNat 2)))
  | .exp => some (call .ln other)
  | .ln => some (call .exp other)
  | .log10 => some (bin .pow (num (Scalar.ofNat 10)) other)
  | .sin => some (call .asin other)
  | .cos => some (call .acos other)
  | .tan => some (call .atan other)
  | .asin => some (call .sin other)
  | .acos => some (call .cos other)
  | .atan => some (call .tan other)
  | .abs => none

/-- Peels the side that holds the target until the target is all that is left of it. -/
def isolate (target : String) : Expr ν → Expr ν → Option (Expr ν)
  | num _, _ => none
  | sym s, other => if s = target then some other else none
  | neg e, other => isolate target e (-other)
  | bin op l r, other =>
    if l.contains target then (undoLeft op other r).bind (isolate target l)
    else (undoRight op other l).bind (isolate target r)
  | call f e, other => (undoCall f other).bind (isolate target e)

/-- The form `slope * target + offset` of an expression that is linear in the target. -/
def linear? (target : String) (e : Expr ν) : Option (Expr ν × Expr ν) :=
  if e.contains target then
    match e with
    | num _ => none
    | sym _ => some (num (Scalar.ofNat 1), num (Scalar.ofNat 0))
    | neg e => (linear? target e).map fun (slope, offset) => (-slope, -offset)
    | bin .add l r => do
      let (slope, offset) ← linear? target l
      let (slope', offset') ← linear? target r
      some (slope + slope', offset + offset')
    | bin .sub l r => do
      let (slope, offset) ← linear? target l
      let (slope', offset') ← linear? target r
      some (slope - slope', offset - offset')
    | bin .mul l r =>
      if !l.contains target then (linear? target r).map fun (slope, offset) => (l * slope, l * offset)
      else if !r.contains target then
        (linear? target l).map fun (slope, offset) => (slope * r, offset * r)
      else none
    | bin .div l r =>
      if !r.contains target then (linear? target l).map fun (slope, offset) => (slope / r, offset / r)
      else none
    | bin .pow _ _ => none
    | call _ _ => none
  else some (num (Scalar.ofNat 0), e)

end Expr

namespace Equation

variable {ν : Type} [Scalar ν]

/-- The solution of an equation that is linear in the target, unless the slope is zero. -/
def collect (target : String) (q : Equation ν) : Option (Expr ν) := do
  let (slope, offset) ← q.zeroForm.linear? target
  let slope := slope.simplify
  if slope.isNum (Scalar.ofNat 0) then none else some (-offset / slope)

/-- The target in terms of the other symbols, before simplification. -/
def solution? (target : String) (q : Equation ν) : Option (Expr ν) :=
  match q.lhs.count target, q.rhs.count target with
  | 0, 0 => none
  | 1, 0 => q.lhs.isolate target q.rhs
  | 0, 1 => q.rhs.isolate target q.lhs
  | _, _ => q.collect target

def solveFor (target : String) (q : Equation ν) : Except Error (Expr ν) :=
  match q.solution? target with
  | some e => .ok e.simplify
  | none => .error (.noSolution target q.print)

end Equation

end FormulaNet

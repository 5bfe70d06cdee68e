import FormulaNet.Rearrangement.Strategy

/-!
# Rearrangement by shape

The last resort: a target that stands alone on one side, or a product or quotient of bare symbols.
-/

namespace FormulaNet.Strategy

variable {ν : Type} [Scalar ν]

/-- Whether the expression is the bare symbol. -/
def isSymbol (name : String) : Expr ν → Bool
  | .sym s => s = name
  | _ => false

/-- The side that the target is equal to, if the target is the other side and is not in it. -/
def alone (q : Equation ν) (target : String) : Option (Expr ν) :=
  if isSymbol target q.lhs && !q.rhs.contains target then some q.rhs
  else if isSymbol target q.rhs && !q.lhs.contains target then some q.lhs
  else none

/-- The target as a factor, dividend or divisor: `whole = parts`, all of them bare symbols. -/
def factor (whole parts : Expr ν) (target : String) : Option (Expr ν) :=
  match whole, parts with
  | .sym a, .bin op (.sym b) (.sym c) =>
    match op with
    | .mul =>
      if b = target then some (.sym a / .sym c) else if c = target then some (.sym a / .sym b) else none
    | .div =>
      if b = target then some (.sym a * .sym c) else if c = target then some (.sym b / .sym a) else none
    | _ => none
  | _, _ => none

def simpleShape? (q : Equation ν) (target : String) : Option (Expr ν) :=
  (alone q target).or ((factor q.lhs q.rhs target).or (factor q.rhs q.lhs target))

def simple : Strategy ν where
  name := "simple_transform"
  attempt q target :=
    .ofOption (simpleShape? q target) s!"{q.print} has no simple shape for {target}"

end FormulaNet.Strategy

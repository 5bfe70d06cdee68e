import FormulaNet.Expr.Basic

/-!
# Printing expressions

Text with as few brackets as precedence and association allow: sums bind loosest, then products and
quotients, then negation (and negative literals), then powers.  The parser reads the text back.
-/

namespace FormulaNet

/-- How tightly an operator binds. -/
def Operator.rank : Operator → Nat
  | add | sub => 1
  | mul | div => 2
  | pow => 4

/-- A right operand of the same rank regroups under these, so it keeps its brackets. -/
def Operator.regroups : Operator → Bool
  | sub | div => true
  | _ => false

namespace Expr

variable {ν : Type} [Scalar ν]

/-- How tightly the outermost form of an expression binds. -/
def rank : Expr ν → Nat
  | num x => if Scalar.isNegative x then 3 else 5
  | sym _ => 5
  | neg _ => 3
  | bin op _ _ => op.rank
  | call _ _ => 5

/-- Powers group to the right, so a power on the left of one is bracketed. -/
def bracketsLeft (op : Operator) (left : Expr ν) : Bool :=
  left.rank < op.rank || (op = .pow && left.rank ≤ op.rank)

def bracketsRight (op : Operator) (right : Expr ν) : Bool :=
  right.rank < op.rank || (right.rank = op.rank && op.regroups)

def bracketed (brackets : Bool) (text : String) : String :=
  if brackets then "(" ++ text ++ ")" else text

def print : Expr ν → String
  | num x => Scalar.text x
  | sym s => s
  | neg e => "-" ++ bracketed (e.rank ≤ 3) e.print
  | bin op l r =>
    bracketed (bracketsLeft op l) l.print ++ " " ++ op.sign ++ " " ++
      bracketed (bracketsRight op r) r.print
  | call f e => f.name ++ "(" ++ e.print ++ ")"

@[simp] theorem bracketed_true (s : String) : bracketed true s = "(" ++ s ++ ")" := rfl
@[simp] theorem bracketed_false (s : String) : bracketed false s = s := rfl

end Expr

def Equation.print {ν : Type} [Scalar ν] (q : Equation ν) : String := q.lhs.print ++ " = " ++ q.rhs.print

end FormulaNet

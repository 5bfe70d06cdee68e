/-!
# Functions of one argument

The functions that a formula may call by name.
-/

namespace FormulaNet

inductive Function where
  | sqrt | sin | cos | tan | asin | acos | atan | ln | log10 | exp | abs
  deriving DecidableEq, Repr

namespace Function

def all : List Function := [sqrt, sin, cos, tan, asin, acos, atan, ln, log10, exp, abs]

def name : Function → String
  | sqrt => "sqrt"
  | sin => "sin"
  | cos => "cos"
  | tan => "tan"
  | asin => "asin"
  | acos => "acos"
  | atan => "atan"
  | ln => "ln"
  | log10 => "log"
  | exp => "exp"
  | abs => "abs"

/-- The function of a name; `log10` is a second name of `log`. -/
def ofName? (name : String) : Option Function :=
  if name = "log10" then some log10 else all.find? (·.name = name)

@[simp] theorem ofName?_name (f : Function) : ofName? f.name = some f := by cases f <;> decide

end Function

end FormulaNet

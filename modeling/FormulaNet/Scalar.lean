import FormulaNet.Decimal.Layout
import FormulaNet.Function

/-!
# Scalars

Formulas are rearranged and evaluated over any type of numbers that can be computed with, compared, read
and written.  Programs use doubles; a statement about exact arithmetic takes an exact type instead.
-/

namespace FormulaNet

/-- The numbers of formulas. -/
class Scalar (ν : Type) extends Add ν, Sub ν, Mul ν, Div ν, Neg ν where
  pow : ν → ν → ν
  apply : Function → ν → ν
  pi : ν
  /-- `digits * 10 ^ exponent`. -/
  decimal (digits : Nat) (exponent : Int) : ν
  /-- What the name of infinity denotes, if the type has such a value. -/
  infinity? : Option ν
  /-- What the name of an undefined value denotes, if the type has such a value. -/
  undefined? : Option ν
  /-- Numeric equality. -/
  same : ν → ν → Bool
  /-- Less than zero. -/
  isNegative : ν → Bool
  isFinite : ν → Bool
  isUndefined : ν → Bool
  text : ν → String

namespace Scalar

variable {ν : Type} [Scalar ν]

def ofNat (n : Nat) : ν := decimal n 0

/-- What a numeral denotes among the scalars. -/
def ofNumeral? : Numeral → Option ν
  | .decimal negative digits exponent =>
    some (if negative then -(decimal digits exponent) else decimal digits exponent)
  | .infinity negative => infinity?.map fun x => if negative then -x else x
  | .undefined => undefined?

/-- Reads a whole text as a numeral. -/
def read? (text : String) : Option ν := (Numeral.read? text.toList).bind ofNumeral?

instance : Scalar Float where
  pow := Float.pow
  apply
    | .sqrt => Float.sqrt
    | .sin => Float.sin
    | .cos => Float.cos
    | .tan => Float.tan
    | .asin => Float.asin
    | .acos => Float.acos
    | .atan => Float.atan
    | .ln => Float.log
    | .log10 => Float.log10
    | .exp => Float.exp
    | .abs => Float.abs
  pi := 3.141592653589793
  decimal := Binary64.ofDecimal
  infinity? := some (1 / 0)
  undefined? := some (0 / 0)
  same x y := x == y
  isNegative x := x < 0
  isFinite := Float.isFinite
  isUndefined := Float.isNaN
  text := Decimal.plain

end Scalar

end FormulaNet

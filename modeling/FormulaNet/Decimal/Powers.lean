/-!
# Powers of two and ten

The scales of doubles and decimals.  An exponent may have either sign, and a scale is used in pairs: a
number times `twoTo e`, over `twoTo (-e)`, where one of the two is one.
-/

namespace FormulaNet.Decimal

/-- The power of two, one if the exponent is negative. -/
def twoTo (exponent : Int) : Nat := Nat.pow 2 exponent.toNat

/-- The power of ten, one if the exponent is negative. -/
def tenTo (exponent : Int) : Nat := Nat.pow 10 exponent.toNat

@[simp] theorem twoTo_zero : twoTo 0 = 1 := rfl

@[simp] theorem tenTo_zero : tenTo 0 = 1 := rfl

theorem twoTo_pos (exponent : Int) : 0 < twoTo exponent := Nat.pow_pos Nat.two_pos

theorem tenTo_pos (exponent : Int) : 0 < tenTo exponent := Nat.pow_pos (by decide)

end FormulaNet.Decimal

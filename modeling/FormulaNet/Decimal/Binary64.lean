import FormulaNet.Decimal.Numeral
import FormulaNet.Decimal.Powers

/-!
# Doubles as exact numbers

A finite double is a whole number times a power of two.  This module takes a `Float` apart into that form,
finds the double nearest to a decimal, and computes the length of a plane vector, `hypot`, so that it
neither overflows on the way nor is off by more than the last bit.
-/

namespace FormulaNet

/-- The value of a double; a finite one is `mantissa * 2 ^ exponent` with a sign. -/
inductive Binary64 where
  | undefined
  | infinite (negative : Bool)
  | finite (negative : Bool) (mantissa : Nat) (exponent : Int)
  deriving DecidableEq, Repr

namespace Binary64

open Decimal (twoTo)

def ofFloat (x : Float) : Binary64 :=
  let bits := x.toBits.toNat
  let negative := bits / twoTo 63 == 1
  let field : Nat := bits / twoTo 52 % twoTo 11
  let fraction := bits % twoTo 52
  if field = 2047 then
    if fraction = 0 then .infinite negative else .undefined
  else if field = 0 then .finite negative fraction (-1074)
  else .finite negative (twoTo 52 + fraction) ((field : Int) - 1075)

/-- The quotient rounded to the nearest whole number, a tie to the even one. -/
def roundDiv (numerator denominator : Nat) : Nat :=
  let quotient := numerator / denominator
  let twice := 2 * (numerator % denominator)
  if twice < denominator ∨ (twice = denominator ∧ quotient % 2 = 0) then quotient else quotient + 1

/-- The root of `x * x + y * y` for `y ≤ x`, corrected by what the square of the rounded root exceeds the
sum by.  Both forms of the excess are equal to `h * h - x * x - y * y`; each is used where little is lost
when its terms are rounded. -/
def correctedRoot (x y : Float) : Float :=
  let h := (x * x + y * y).sqrt
  let excess :=
    if h ≤ 2 * y then
      let d := h - y
      x * (2 * d - x) + (d - 2 * (x - y)) * d
    else
      let d := h - x
      2 * d * (x - 2 * y) + ((4 * d - y) * y + d * d)
  h - excess / (2 * h)

/-- The power of two with an exponent from -1022 to 1023. -/
def powerOfTwo (exponent : Int) : Float :=
  .ofBits (UInt64.ofNat (twoTo 52 * (exponent + 1023).toNat))

/-- The length of the vector `(x, y)`.  A coordinate too small for its square to matter is only added, and
coordinates whose squares would overflow or vanish are scaled by a power of two on the way. -/
def hypot (x y : Float) : Float :=
  let large := if x.abs < y.abs then y.abs else x.abs
  let small := if x.abs < y.abs then x.abs else y.abs
  if x.isInf || y.isInf then 1 / 0
  else if small * powerOfTwo 54 ≤ large then large + small
  else if large > powerOfTwo 511 then
    correctedRoot (large * powerOfTwo (-600)) (small * powerOfTwo (-600)) * powerOfTwo 600
  else if small < powerOfTwo (-459) then
    correctedRoot (large * powerOfTwo 600) (small * powerOfTwo 600) * powerOfTwo (-600)
  else correctedRoot large small

/-- The double nearest to a numeral.  Past a power of ten of a few hundred the answer no longer depends
on the digits, so no power is computed there. -/
def ofDecimal (digits : Nat) (exponent : Int) : Float :=
  let magnitude : Int := (Nat.toDigits 10 digits).length + exponent
  if digits = 0 ∨ magnitude < -400 then 0
  else if magnitude > 400 then 1 / 0
  else Float.ofScientific digits (exponent < 0) exponent.natAbs

end Binary64

/-- The double that a numeral denotes. -/
def Numeral.toFloat : Numeral → Float
  | .decimal negative digits exponent =>
    let x := Binary64.ofDecimal digits exponent
    if negative then -x else x
  | .infinity negative => if negative then -(1 / 0) else 1 / 0
  | .undefined => 0 / 0

end FormulaNet

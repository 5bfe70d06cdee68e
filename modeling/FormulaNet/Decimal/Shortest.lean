import FormulaNet.Decimal.Binary64

/-!
# The shortest decimal of a double

A double stands for an interval of reals, those that round to it.  Its shortest decimal is the number of
that interval with the fewest digits, and among those the one nearest to the double itself.  `shortest`
tries grids of one digit, two digits and so on: if any point of a grid lies in the interval, one of the
two neighbours of the double on that grid does.  Seventeen digits always suffice.
-/

namespace FormulaNet

/-- A decimal `digits * 10 ^ exponent`. -/
structure Decimal where
  digits : Nat
  exponent : Int
  deriving DecidableEq, Repr

namespace Decimal

/-- The digits as they are written. -/
def text (d : Decimal) : List Char := Nat.toDigits 10 d.digits

/-- How many digits stand before the point; zero or less when the value is below one tenth or so. -/
def pointPosition (d : Decimal) : Int := (d.text.length : Int) + d.exponent

/-- Which of two equally near neighbours is taken. -/
inductive Tie where
  | up
  | toEven
  deriving DecidableEq, Repr

/-- The power of ten of the leading digit of `mantissa * 2 ^ exponent`, for a positive mantissa. -/
def leadingPower (mantissa : Nat) (exponent : Int) : Int :=
  let numerator := mantissa * twoTo exponent
  let denominator := twoTo (-exponent)
  if denominator ≤ numerator then
    ((Nat.toDigits 10 (numerator / denominator)).length : Int) - 1
  else
    -((Nat.toDigits 10 ((denominator + numerator - 1) / numerator - 1)).length : Int)

/-- The interval of a double, in quarters of its last place: `low`, the double itself and `high`.  Below
a power of two the doubles lie twice as dense.  The ends belong to the interval of an even mantissa. -/
structure Interval where
  low : Nat
  mid : Nat
  high : Nat
  closed : Bool

def interval (mantissa : Nat) (exponent : Int) : Interval where
  low := 4 * mantissa - if mantissa = twoTo 52 ∧ exponent > -1074 then 1 else 2
  mid := 4 * mantissa
  high := 4 * mantissa + 2
  closed := mantissa % 2 = 0

/-- Whether a point lies in the interval, both given in a common unit: a quarter of the last place is
`unit` and the point is `point`. -/
def Interval.contains (i : Interval) (unit point : Nat) : Bool :=
  if i.closed then i.low * unit ≤ point && point ≤ i.high * unit
  else i.low * unit < point && point < i.high * unit

/-- The point of the grid `10 ^ power` that is in the interval, the nearer one if both neighbours are. -/
def onGrid? (tie : Tie) (i : Interval) (exponent power : Int) : Option Decimal :=
  let unit := twoTo (exponent - 2) * tenTo (-power)
  let step := tenTo power * twoTo (2 - exponent)
  let below := i.mid * unit / step
  let above := below + 1
  let fromBelow := i.mid * unit - below * step
  let fromAbove := above * step - i.mid * unit
  let pickAbove := fromAbove < fromBelow ||
    (fromAbove = fromBelow && (tie = .up || below % 2 = 1))
  match i.contains unit (below * step), i.contains unit (above * step) with
  | true, true => some ⟨if pickAbove then above else below, power⟩
  | true, false => some ⟨below, power⟩
  | false, true => some ⟨above, power⟩
  | false, false => none

/-- Tries grids that start at `power` and get finer by one digit each. -/
def firstGrid (tie : Tie) (i : Interval) (exponent power : Int) : Nat → Decimal
  | 0 => ⟨0, 0⟩
  | n + 1 => (onGrid? tie i exponent power).getD (firstGrid tie i exponent (power - 1) n)

/-- The shortest decimal of the positive double `mantissa * 2 ^ exponent`.  The first grid holds the next
power of ten, which is what a double just below that power may shorten to. -/
def shortest (tie : Tie) (mantissa : Nat) (exponent : Int) : Decimal :=
  firstGrid tie (interval mantissa exponent) exponent (leadingPower mantissa exponent + 1) 18

end Decimal

end FormulaNet

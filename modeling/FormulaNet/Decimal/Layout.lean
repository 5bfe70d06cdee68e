import FormulaNet.Decimal.Shortest

/-!
# How doubles are written

Four layouts, each a function from doubles to text:

* `plain`: the shortest digits, never with a power of ten;
* `json`: the shortest digits, with at least one digit after the point, and with a power of ten for
  numbers below `1e-5` and from `1e16` on;
* `fixed n`: `n` digits after the point, rounded from the exact value, ties to even;
* `scientific n`: one digit before the point, `n` after it, and a power of ten, rounded the same way.

Negative zero keeps its sign everywhere.
-/

namespace FormulaNet.Decimal

/-- Puts a point after the first `position` digits, with zeros where digits are missing. -/
def withPoint (digits : List Char) (position : Int) : List Char :=
  if position ≤ 0 then '0' :: '.' :: (List.replicate (-position).toNat '0' ++ digits)
  else if digits.length ≤ position.toNat then
    digits ++ List.replicate (position.toNat - digits.length) '0'
  else digits.take position.toNat ++ '.' :: digits.drop position.toNat

/-- One digit before the point and the others after it. -/
def leading (digits : List Char) : List Char :=
  match digits with
  | d :: e :: rest => d :: '.' :: e :: rest
  | _ => digits

def signed (negative : Bool) (text : List Char) : String :=
  String.ofList (if negative then '-' :: text else text)

def powerText (power : Int) : List Char := (toString power).toList

/-- Writes a double by its parts, with common names for the values that are no numbers. -/
def layOut (x : Float) (write : Nat → Int → List Char) : String :=
  match Binary64.ofFloat x with
  | .undefined => "NaN"
  | .infinite negative => signed negative "inf".toList
  | .finite negative mantissa exponent => signed negative (write mantissa exponent)

def plain (x : Float) : String :=
  layOut x fun mantissa exponent =>
    if mantissa = 0 then ['0']
    else
      let d := shortest .up mantissa exponent
      withPoint d.text d.pointPosition

/-- The layout of numbers in JSON text. -/
def json (x : Float) : String :=
  layOut x fun mantissa exponent =>
    if mantissa = 0 then "0.0".toList
    else
      let d := shortest .toEven mantissa exponent
      let position := d.pointPosition
      if -5 < position ∧ position ≤ 16 then
        if 0 ≤ d.exponent then withPoint d.text position ++ ['.', '0']
        else withPoint d.text position
      else
        let power := position - 1
        leading d.text ++ 'e' :: ((if 0 ≤ power then ['+'] else []) ++ powerText power)

/-- `mantissa * 2 ^ exponent * 10 ^ power`, rounded to a whole number. -/
def scaled (mantissa : Nat) (exponent power : Int) : Nat :=
  Binary64.roundDiv (mantissa * twoTo exponent * tenTo power)
    (twoTo (-exponent) * tenTo (-power))

def fixed (places : Nat) (x : Float) : String :=
  layOut x fun mantissa exponent =>
    let digits := Nat.toDigits 10 (scaled mantissa exponent places)
    withPoint (List.replicate (places + 1 - digits.length) '0' ++ digits)
      (max digits.length (places + 1) - places)

def scientific (places : Nat) (x : Float) : String :=
  layOut x fun mantissa exponent =>
    if mantissa = 0 then leading (List.replicate (places + 1) '0') ++ ['e', '0']
    else
      let power := leadingPower mantissa exponent
      let rounded := scaled mantissa exponent (places - power)
      if rounded < tenTo (places + 1) then leading (Nat.toDigits 10 rounded) ++ 'e' :: powerText power
      else leading (Nat.toDigits 10 (rounded / 10)) ++ 'e' :: powerText (power + 1)

end FormulaNet.Decimal

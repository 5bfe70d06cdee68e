import FormulaNet.Decimal.Layout

/-!
# JSON values

A value as its text gives it: fields in order, repetitions kept, numbers by their literal.  How a number
is read depends on who asks, so a literal is interpreted only on demand: `natural?` takes whole numbers
that fit 64 bits, `real?` takes doubles.
-/

namespace FormulaNet

inductive Json where
  | null
  | bool (b : Bool)
  /-- The literal follows the grammar of JSON numbers. -/
  | number (literal : String)
  | string (s : String)
  | array (items : List Json)
  | object (fields : List (String × Json))
  /-- A string, or an object with a key, that holds half of a surrogate pair.  It can be passed over but
  denotes nothing. -/
  | malformed

namespace Json

/-- The largest whole number that fits 64 bits. -/
def maxNatural : Nat := 18446744073709551615

/-- A whole number written with digits alone. -/
def natural? : Json → Option Nat
  | number literal =>
    let cs := literal.toList
    if Numeral.isDigits cs ∧ Numeral.ofDigits cs ≤ maxNatural then some (Numeral.ofDigits cs) else none
  | _ => none

def bool? : Json → Option Bool
  | bool b => some b
  | _ => none

def string? : Json → Option String
  | string s => some s
  | _ => none

/-- Every item has to be of the kind. -/
def list? {α : Type} (item? : Json → Option α) : Json → Option (List α)
  | array items => items.mapM item?
  | _ => none

/-! ## Doubles

The digits of a number are taken as one whole number for as long as it fits 64 bits; further digits before
the point only scale it, and further digits after the point are dropped.  That whole number is rounded
once to a double, and the power of ten that remains is applied by one multiplication or by divisions. -/

/-- Appends digits to a whole number while it fits 64 bits, and counts those taken. -/
def absorb (n : Nat) : List Char → Nat × Nat
  | [] => (n, 0)
  | c :: cs =>
    let next := 10 * n + (c.toNat - '0'.toNat)
    if next ≤ maxNatural then
      let (m, taken) := absorb next cs
      (m, taken + 1)
    else (n, 0)

/-- The largest power of ten that is a double. -/
def maxPower : Nat := 308

def powerOfTen (n : Nat) : Float := Binary64.ofDecimal 1 n

/-- Divides by a power of ten, in steps no larger than the largest double power. -/
def divide (x : Float) (power : Nat) : Float :=
  if power ≤ maxPower then x / powerOfTen power
  else if x == 0 then x
  else divide (x / powerOfTen maxPower) (power - maxPower)
termination_by power
decreasing_by simp [maxPower] at *; omega

/-- The double `n * 10 ^ power`, unless it is too large. -/
def scale? (n : Nat) (power : Int) : Option Float :=
  let x := Binary64.ofDecimal n 0
  if power < 0 then some (divide x power.natAbs)
  else if n = 0 then some x
  else if power.natAbs ≤ maxPower then
    let y := x * powerOfTen power.natAbs
    if y.isFinite then some y else none
  else none

/-- The double that a literal denotes, unless it is too large. -/
def real? : Json → Option Float
  | number literal => do
    let (negative, cs) := Numeral.takeSign literal.toList
    let (whole, fraction, rest) := Numeral.splitMantissa cs
    let power ← Numeral.readPower? rest
    let (n, taken) := absorb 0 whole
    let (n, takenAfter) := absorb n fraction
    let x ← scale? n (power + (whole.length - taken : Nat) - takenAfter)
    some (if negative then -x else x)
  | _ => none

/-- The number that a natural number is written as. -/
def ofNat (n : Nat) : Json := number (toString n)

/-- A double as a number; what is not finite has no literal. -/
def ofFloat (x : Float) : Json := if x.isFinite then number (Decimal.json x) else null

def ofOption {α : Type} (encode : α → Json) : Option α → Json
  | none => null
  | some a => encode a

@[simp] theorem string?_string (s : String) : (string s).string? = some s := rfl
@[simp] theorem bool?_bool (b : Bool) : (bool b).bool? = some b := rfl

end Json

end FormulaNet

/-!
# Decimal numerals

A numeral is an optional sign, digits with at most one point among or around them, and an optional power
of ten; or it names infinity or an undefined value.  `Numeral.read?` takes a whole text or nothing, and
keeps the number exactly: it is the scalar type that rounds.
-/

namespace FormulaNet

/-- What a numeral denotes: `digits * 10 ^ exponent` with a sign, or a special value. -/
inductive Numeral where
  | decimal (negative : Bool) (digits : Nat) (exponent : Int)
  | infinity (negative : Bool)
  | undefined
  deriving DecidableEq, Repr

namespace Numeral

/-- The number that a run of decimal digits writes. -/
def ofDigits (cs : List Char) : Nat := cs.foldl (fun n c => 10 * n + (c.toNat - '0'.toNat)) 0

@[simp] theorem ofDigits_nil : ofDigits [] = 0 := rfl

/-- A sign, if there is one, and what follows it. -/
def takeSign : List Char → Bool × List Char
  | '-' :: cs => (true, cs)
  | '+' :: cs => (false, cs)
  | cs => (false, cs)

/-- A nonempty run of digits and nothing else. -/
def isDigits (cs : List Char) : Bool := !cs.isEmpty && cs.all Char.isDigit

/-- The power of ten at the end of a numeral: nothing at all, or `e`, a sign and digits. -/
def readPower? : List Char → Option Int
  | [] => some 0
  | c :: cs =>
    let (negative, ds) := takeSign cs
    if (c = 'e' ∨ c = 'E') ∧ isDigits ds then
      some (if negative then -(ofDigits ds : Int) else ofDigits ds)
    else none

/-- The digits before the point, those after it, and the rest. -/
def splitMantissa (cs : List Char) : List Char × List Char × List Char :=
  let whole := cs.takeWhile Char.isDigit
  match cs.dropWhile Char.isDigit with
  | '.' :: rest => (whole, rest.takeWhile Char.isDigit, rest.dropWhile Char.isDigit)
  | rest => (whole, [], rest)

/-- An unsigned decimal; the point may stand first or last, but some digit has to be there. -/
def readUnsigned? (negative : Bool) (cs : List Char) : Option Numeral :=
  let (whole, fraction, rest) := splitMantissa cs
  if whole.isEmpty && fraction.isEmpty then none
  else (readPower? rest).map fun power =>
    .decimal negative (ofDigits (whole ++ fraction)) (power - fraction.length)

/-- The special values go by name, in either case. -/
def readSpecial? (negative : Bool) (cs : List Char) : Option Numeral :=
  let name := String.ofList (cs.map Char.toLower)
  if name = "inf" ∨ name = "infinity" then some (.infinity negative)
  else if name = "nan" then some .undefined
  else none

def read? (cs : List Char) : Option Numeral :=
  let (negative, rest) := takeSign cs
  (readUnsigned? negative rest).or (readSpecial? negative rest)

@[simp] theorem readPower?_nil : readPower? [] = some 0 := rfl

@[simp] theorem read?_nil : read? [] = none := by decide

end Numeral

end FormulaNet

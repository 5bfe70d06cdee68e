import FormulaNet.Decimal.Layout
import FormulaNet.Text.Classes

/-!
# Directions

The direction of a force is given in words or by a number, in English or Chinese, or follows from the kind
of force.  It is read as an angle from the positive x axis, counter-clockwise, in radians:

1. a number in the text, in degrees unless `rad` follows it;
2. otherwise a word such as `down` or `向下`;
3. otherwise the kind of force: gravity points down, the normal force up, friction to the left, all else
   to the right.

`describe` puts an angle into words; within five degrees of an axis it names the axis.
-/

namespace FormulaNet.Direction

open Text

def pi : Float := 3.141592653589793

def halfPi : Float := 1.5707963267948966

def toRadians (degrees : Float) : Float := degrees * (pi / 180)

def toDegrees (radians : Float) : Float := radians * (180 / pi)

/-- The lower case of a character as far as it matters here: of all characters beyond ASCII only these two
have an ASCII letter in their lower case, and directions are told by ASCII letters, digits and characters
without case. -/
def lower (c : Char) : List Char :=
  match c with
  | '\u212a' => ['k']
  | '\u0130' => ['i', '\u0307']
  | c => [c.toLower]

def lowered (s : String) : List Char := s.toList.flatMap lower

/-- The minus signs that may stand directly before a number. -/
def isMinus (c : Char) : Bool := c = '-' || c = '−'

/-- What a numeral of a direction consists of. -/
def inNumeral (c : Char) : Bool := c.isDigit || c = '.'

/-- The first numeral, with its sign, and the text after it. -/
def firstNumeral? (cs : List Char) : Option (List Char × List Char) :=
  let before := cs.takeWhile (!·.isDigit)
  match cs.dropWhile (!·.isDigit) with
  | [] => none
  | rest =>
    let sign := if (before.getLast?.map isMinus).getD false then ['-'] else []
    some (sign ++ rest.takeWhile inNumeral, rest.dropWhile inNumeral)

/-- The angle that a number in the text gives. -/
def explicit? (text : String) : Option Float := do
  let (numeral, after) ← firstNumeral? (lowered text)
  let n ← Numeral.read? numeral
  some (if ['r', 'a', 'd'].isPrefixOf (trimStart after) then n.toFloat else toRadians n.toFloat)

/-- The runs of ASCII letters and digits; `word` holds the current one backwards. -/
def words (word : List Char) : List Char → List String
  | [] => [String.ofList word.reverse]
  | c :: cs =>
    if c.isAlphanum then words (c :: word) cs else String.ofList word.reverse :: words [] cs

/-- Whether a text occurs in another. -/
def occursIn (part : List Char) : List Char → Bool
  | [] => part.isEmpty
  | c :: cs => part.isPrefixOf (c :: cs) || occursIn part cs

/-- Whether the Chinese word occurs anywhere, or one of the English words stands by itself. -/
def mentions (cs : List Char) (anywhere : List Char) (alone : List String) : Bool :=
  occursIn anywhere cs || (words [] cs).any alone.contains

/-- The angle that a word in the text gives. -/
def keyword? (text : String) : Option Float :=
  let cs := lowered text
  if mentions cs ['向', '下'] ["down", "downward", "downwards"] then some (-halfPi)
  else if mentions cs ['向', '上'] ["up", "upward", "upwards"] then some halfPi
  else if mentions cs ['向', '右'] ["right", "rightward", "rightwards"] then some 0
  else if mentions cs ['向', '左'] ["left", "leftward", "leftwards"] then some pi
  else none

/-- The angle that the kind of force gives. -/
def byKind (subType : Option String) : Float :=
  match subType.map fun s => String.ofList (lowered s) with
  | some "gravity" | some "weight" => -halfPi
  | some "normal" => halfPi
  | some "friction" => pi
  | _ => 0

/-- The angle of a force. -/
def resolve (direction subType : Option String) : Float :=
  (direction.bind fun d => (explicit? d).or (keyword? d)).getD (byKind subType)

/-- The words for an angle. -/
def describe (angle : Float) : String :=
  let degrees := toDegrees angle
  if degrees.abs < 5 then "horizontal right"
  else if (degrees - 90).abs < 5 then "vertical up"
  else if (degrees + 90).abs < 5 then "vertical down"
  else if (degrees.abs - 180).abs < 5 then "horizontal left"
  else if degrees > 0 && degrees < 90 then s!"{Decimal.fixed 1 degrees}° above horizontal"
  else if degrees > 90 && degrees < 180 then
    s!"{Decimal.fixed 1 (180 - degrees)}° above horizontal, to the left"
  else if degrees < 0 && degrees > -90 then s!"{Decimal.fixed 1 (-degrees)}° below horizontal"
  else s!"{Decimal.fixed 1 (degrees + 180)}° below horizontal, to the left"

end FormulaNet.Direction

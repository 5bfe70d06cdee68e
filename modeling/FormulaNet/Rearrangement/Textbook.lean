import FormulaNet.Expr.Parser
import FormulaNet.Rearrangement.Strategy
import FormulaNet.Text.Classes

/-!
# Textbook rearrangements

Common formulas with their solutions for each symbol.  A rule covers an equation that prints like the
rule's own, in either orientation.  A text that is no equation for the parser is covered if it has the
rule's shape: the same characters once blanks, signs of multiplication and stray punctuation at the ends
are left out.
-/

namespace FormulaNet

/-- A formula and its solutions, by symbol. -/
structure Rule (ν : Type) where
  text : String
  equation : Equation ν
  solutions : List (String × Expr ν)

namespace Rule

open Text

variable {ν : Type} [Scalar ν]

def isPunctuation (c : Char) : Bool := c = ';' || c = ',' || c = '.'

/-- What is left of a text without blanks, signs of multiplication and punctuation at its ends. -/
def shapeChars (cs : List Char) : List Char :=
  let kept := cs.filter fun c => !isBlank c && c != '*'
  ((kept.dropWhile isPunctuation).reverse.dropWhile isPunctuation).reverse

/-- The shape of the text with its sides exchanged. -/
def flippedShape (cs : List Char) : List Char :=
  shapeChars ((cs.dropWhile (· ≠ '=')).drop 1 ++ '=' :: cs.takeWhile (· ≠ '='))

def covers (rule : Rule ν) (q : Equation ν) : Bool :=
  rule.equation.print = q.print || rule.equation.flip.print = q.print

def coversText (rule : Rule ν) (text : String) : Bool :=
  let wanted := shapeChars text.toList
  shapeChars rule.text.toList = wanted || flippedShape rule.text.toList = wanted

def solution? (rule : Rule ν) (target : String) : Option (Expr ν) := rule.solutions.lookup target

/-- The solution of the first rule that covers the equation. -/
def lookup (rules : List (Rule ν)) (q : Equation ν) (target : String) : Option (Expr ν) :=
  (rules.find? (·.covers q)).bind (·.solution? target)

/-- The solution of the first rule that has the shape of the text. -/
def lookupText (rules : List (Rule ν)) (text target : String) : Option (Expr ν) :=
  (rules.find? (·.coversText text)).bind (·.solution? target)

/-! ## The rules -/

/-- A rule read from the text of its formula and those of its solutions, whose symbols are the vocabulary.
There is none if one of the texts cannot be read. -/
def read? (text : String) (solutions : List (String × String)) : Option (Rule ν) := do
  let v := Vocabulary.ofList (solutions.map Prod.fst)
  let equation ← (Equation.parse v text).toOption
  let solutions ← solutions.mapM fun (symbol, solution) => do
    some (symbol, ← (Expr.parse v solution).toOption)
  guard ('=' ∈ text.toList)
  some { text, equation, solutions }

/-- Formulas, each with its solutions by symbol. -/
def texts : List (String × List (String × String)) := [
  ("F = m*a", [("F", "m*a"), ("m", "F/a"), ("a", "F/m")]),
  ("V = I*R", [("V", "I*R"), ("I", "V/R"), ("R", "V/I")]),
  ("P = V*I", [("P", "V*I"), ("V", "P/I"), ("I", "P/V")]),
  ("E = 0.5*m*v^2", [("E", "0.5*m*v^2"), ("m", "E/(0.5*v^2)"), ("v", "sqrt(E/(0.5*m))")]),
  ("A = pi*r^2", [("A", "pi*r^2"), ("r", "sqrt(A/pi)")]),
  ("v = s/t", [("v", "s/t"), ("s", "v*t"), ("t", "s/v")]),
  ("a = v/t", [("a", "v/t"), ("v", "a*t"), ("t", "v/a")])]

def builtin : List (Rule ν) := texts.filterMap fun (text, solutions) => read? text solutions

end Rule

namespace Strategy

variable {ν : Type} [Scalar ν]

/-- Looks solutions up among rules. -/
def textbook (rules : List (Rule ν)) : Strategy ν where
  name := "rule_table"
  attempt q target :=
    .ofOption (Rule.lookup rules q target) s!"no stored rule for {target} in {q.print}"
  attemptText text target :=
    .ofOption (Rule.lookupText rules text target) s!"no stored rule for {target} in {text}"

end Strategy

end FormulaNet

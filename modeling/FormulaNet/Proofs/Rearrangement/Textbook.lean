import FormulaNet.Rearrangement.Textbook
import Mathlib

/-!
# What the textbook says

The rules are given as texts.  All of them can be read, and these are the trees that they are read as.
-/

namespace FormulaNet.Rule

open FormulaNet.Expr (sym)

variable {ν : Type} [Scalar ν]

def half : Expr ν := .num (Scalar.decimal 5 (-1))
def squared (e : Expr ν) : Expr ν := .bin .pow e (.num (Scalar.ofNat 2))
def squareRoot (e : Expr ν) : Expr ν := .call .sqrt e

def newton : Rule ν where
  text := "F = m*a"
  equation := ⟨sym "F", sym "m" * sym "a"⟩
  solutions := [("F", sym "m" * sym "a"), ("m", sym "F" / sym "a"), ("a", sym "F" / sym "m")]

def ohm : Rule ν where
  text := "V = I*R"
  equation := ⟨sym "V", sym "I" * sym "R"⟩
  solutions := [("V", sym "I" * sym "R"), ("I", sym "V" / sym "R"), ("R", sym "V" / sym "I")]

def electricPower : Rule ν where
  text := "P = V*I"
  equation := ⟨sym "P", sym "V" * sym "I"⟩
  solutions := [("P", sym "V" * sym "I"), ("V", sym "P" / sym "I"), ("I", sym "P" / sym "V")]

def kineticEnergy : Rule ν where
  text := "E = 0.5*m*v^2"
  equation := ⟨sym "E", half * sym "m" * squared (sym "v")⟩
  solutions := [
    ("E", half * sym "m" * squared (sym "v")),
    ("m", sym "E" / (half * squared (sym "v"))),
    ("v", squareRoot (sym "E" / (half * sym "m")))]

def circleArea : Rule ν where
  text := "A = pi*r^2"
  equation := ⟨sym "A", sym "pi" * squared (sym "r")⟩
  solutions := [("A", sym "pi" * squared (sym "r")), ("r", squareRoot (sym "A" / sym "pi"))]

def velocity : Rule ν where
  text := "v = s/t"
  equation := ⟨sym "v", sym "s" / sym "t"⟩
  solutions := [("v", sym "s" / sym "t"), ("s", sym "v" * sym "t"), ("t", sym "s" / sym "v")]

def acceleration : Rule ν where
  text := "a = v/t"
  equation := ⟨sym "a", sym "v" / sym "t"⟩
  solutions := [("a", sym "v" / sym "t"), ("v", sym "a" * sym "t"), ("t", sym "v" / sym "a")]

def trees : List (Rule ν) :=
  [newton, ohm, electricPower, kineticEnergy, circleArea, velocity, acceleration]

set_option maxRecDepth 20000 in
/-- Every text of the textbook can be read, and its rules are these. -/
theorem builtin_eq_trees : (builtin : List (Rule ν)) = trees := by
  cbv

end FormulaNet.Rule

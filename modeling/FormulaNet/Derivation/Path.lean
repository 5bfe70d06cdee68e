import FormulaNet.Decimal.Layout
import FormulaNet.Json.Record
import FormulaNet.Knowledge.Basic

/-!
# Derivations

A derivation is a numbered list of steps.  A step finds a quantity by a formula from other quantities, or
states the value that was calculated for it.  A derivation is well ordered if each formula is applied only
to quantities that are known or found before.
-/

namespace FormulaNet

/-- A value that was calculated, with the name and unit of its quantity. -/
structure Calculated where
  name : String
  value : Float
  unit : String
  deriving Repr

inductive Step where
  | find (number : Nat) (description : String) (formula : FormulaId) (inputs : List QuantityId)
      (output : QuantityId)
  | calculation (number : Nat) (description : String) (formula : FormulaId) (result : Calculated)
  deriving Repr

namespace Calculated

/-- Four decimals without trailing zeros; a power of ten for very small and very large values. -/
def valueText (x : Float) : String :=
  let magnitude := x.abs
  if magnitude != 0 && !(0.001 ≤ magnitude && magnitude < 1000000) then Decimal.scientific 3 x
  else
    let digits := (Decimal.fixed 4 x).toList.reverse.dropWhile (· = '0')
    String.ofList (digits.dropWhile (· = '.')).reverse

end Calculated

namespace Step

/-- The step that finds a quantity by a formula, not numbered yet. -/
def ofFormula (formula : FormulaId) (inputs : List QuantityId) (output : QuantityId) : Step :=
  .find 0 s!"Use formula {formula} to find quantity {output}" formula inputs output

/-- The step that states a value, not numbered yet. -/
def ofResult (formula : FormulaId) (result : Calculated) : Step :=
  .calculation 0 s!"Calculated {result.name} = {Calculated.valueText result.value} {result.unit}"
    formula result

def number : Step → Nat
  | find n .. | calculation n .. => n

def description : Step → String
  | find _ d .. | calculation _ d .. => d

def formula : Step → FormulaId
  | find _ _ f .. | calculation _ _ f _ => f

def withNumber (n : Nat) : Step → Step
  | find _ d f inputs output => find n d f inputs output
  | calculation _ d f r => calculation n d f r

def isFind : Step → Bool
  | find .. => true
  | calculation .. => false

@[simp] theorem number_withNumber (n : Nat) (s : Step) : (s.withNumber n).number = n := by
  cases s <;> rfl
@[simp] theorem formula_withNumber (n : Nat) (s : Step) : (s.withNumber n).formula = s.formula := by
  cases s <;> rfl
@[simp] theorem isFind_withNumber (n : Nat) (s : Step) : (s.withNumber n).isFind = s.isFind := by
  cases s <;> rfl

end Step

/-- Steps in the order in which they are carried out. -/
abbrev Derivation := List Step

namespace Derivation

/-- Numbers the steps from a first number on. -/
def numberFrom (first : Nat) : List Step → Derivation
  | [] => []
  | s :: steps => s.withNumber first :: numberFrom (first + 1) steps

/-- Numbers the steps from one. -/
def ofSteps (steps : List Step) : Derivation := numberFrom 1 steps

/-- The number of formulas that are applied. -/
def applications (d : Derivation) : Nat := d.countP Step.isFind

/-- Whether every formula is applied to available quantities only; what it finds becomes available. -/
def isWellOrdered (available : List QuantityId) : Derivation → Bool
  | [] => true
  | .find _ _ _ inputs output :: steps =>
    inputs.all available.contains && isWellOrdered (output :: available) steps
  | .calculation .. :: steps => isWellOrdered available steps

@[simp] theorem length_numberFrom (n : Nat) (steps : List Step) :
    (numberFrom n steps).length = steps.length := by
  induction steps generalizing n with
  | nil => rfl
  | cons s steps ih => simp [numberFrom, ih]

@[simp] theorem length_ofSteps (steps : List Step) : (ofSteps steps).length = steps.length := by
  simp [ofSteps]

end Derivation

/-! ## Derivations in JSON -/

namespace Calculated

def ofJson? (j : Json) : Option Calculated := do
  let fields ← j.fields? ["name", "value", "unit"]
  let name ← fields.required "name" Json.string?
  let value ← fields.required "value" Json.real?
  let unit ← fields.required "unit" Json.string?
  some { name, value, unit }

end Calculated

namespace Step

/-- The fields of a step are told apart by its kind, so a step may not be nested deeper than this. -/
def maxDepth : Nat := 126

def findOfJson? (j : Json) : Option Step := do
  let fields ← j.fields? ["step", "description", "formula_id", "input_ids", "output_id"]
  let number ← fields.required "step" Json.natural?
  let description ← fields.required "description" Json.string?
  let formula ← fields.required "formula_id" Json.natural?
  let inputs ← fields.required "input_ids" (Json.list? Json.natural?)
  let output ← fields.required "output_id" Json.natural?
  some (.find number description formula inputs output)

def calculationOfJson? (j : Json) : Option Step := do
  let fields ← j.fields? ["step", "description", "formula_id", "result"]
  let number ← fields.required "step" Json.natural?
  let description ← fields.required "description" Json.string?
  let formula ← fields.required "formula_id" Json.natural?
  let result ← fields.required "result" Calculated.ofJson?
  some (.calculation number description formula result)

def ofJson? (j : Json) : Option Step := do
  if j.denotes ∧ j.depth ≤ maxDepth then
    match ← j.tagged? "type" with
    | ("find_formula", fields) => findOfJson? fields
    | ("calculation", fields) => calculationOfJson? fields
    | _ => none
  else none

end Step

def Derivation.ofJson? : Json → Option Derivation := Json.list? Step.ofJson?

end FormulaNet

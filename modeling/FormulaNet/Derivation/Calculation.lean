import FormulaNet.Derivation.Path
import FormulaNet.Knowledge.Source
import FormulaNet.Rearrangement.Solver

/-!
# Carrying out a derivation

The steps of a derivation are carried out in order against a table of values: each formula is loaded and
solved for the quantity it finds, and the value is stated in a step of its own.
-/

namespace FormulaNet

namespace Calculation

/-- The steps with their calculations, the table of values after them, and the last result. -/
structure Outcome where
  steps : List Step
  values : ValueTable Float
  last : Option Calculated

/-- Solves a formula for the output of a step, as the step with that number. -/
def solveStep (chain : List (Strategy Float)) (number : Nat) (f : LoadedFormula Float) (output : Quantity)
    (values : ValueTable Float) : Except Error (Calculated × ValueTable Float) :=
  match Solver.solve chain f output values with
  | (.ok x, values) => .ok (⟨output.name, x, output.unit⟩, values)
  | (.error cause, _) => .error (.calculationFailed number cause)

/-- Carries out the steps that find a quantity; others are passed over. -/
def run (source : Source) (chain : List (Strategy Float)) (values : ValueTable Float) :
    Derivation → Except Error Outcome
  | [] => .ok ⟨[], values, none⟩
  | .calculation .. :: steps => run source chain values steps
  | .find number _ formula inputs output :: steps => do
    let f ← source.load formula
    let q ← Source.found (.outputOf output formula) (f.quantity? output)
    let (result, values) ← solveStep chain number f q values
    let rest ← run source chain values steps
    .ok {
      steps := .find number s!"Use formula {f.formula.name} to find {q.name}" formula inputs output ::
        .ofResult f.formula.id result :: rest.steps
      values := rest.values
      last := rest.last.or (some result) }

/-- The result for the target: its value in the table, or else the last one calculated. -/
def Outcome.result (o : Outcome) (target : Quantity) : Except Error Calculated :=
  match o.values[target.id]?, o.last with
  | some x, _ => .ok ⟨target.name, x, target.unit⟩
  | none, some result => .ok result
  | none, none => .error (.invalidInput .nothingCalculated)

end Calculation

end FormulaNet

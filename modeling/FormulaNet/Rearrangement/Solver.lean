import FormulaNet.Expr.Parser
import FormulaNet.Expr.Value
import FormulaNet.Knowledge.Basic
import FormulaNet.Notation
import FormulaNet.Rearrangement.Simple
import FormulaNet.Rearrangement.Textbook
import Std.Data.TreeMap

/-!
# Solving a formula for a quantity

`Solver.solve` brings a formula and its symbols to plain notation, rearranges it for the symbol of the
target, evaluates the solution with the values known so far, and records the result.  Every other quantity
of the formula has to have a value.
-/

namespace FormulaNet

/-- The values of quantities, by id. -/
abbrev ValueTable (ν : Type) := Std.TreeMap QuantityId ν

/-- Which strategies follow the symbolic one. -/
structure SolverSettings where
  enableRuleTable : Bool := true
  enableSimpleTransform : Bool := true
  deriving DecidableEq, Repr

namespace Solver

variable {ν : Type} [Scalar ν]

/-- The chain of strategies that the settings ask for. -/
def chain (settings : SolverSettings) : List (Strategy ν) :=
  Strategy.symbolic ::
    ((if settings.enableRuleTable then [.textbook Rule.builtin] else []) ++
      (if settings.enableSimpleTransform then [.simple] else []))

/-- Binds the symbols of all quantities but the target. -/
def bindInputs (target : QuantityId) (values : ValueTable ν) :
    List Quantity → Bindings ν → Except Error (Bindings ν)
  | [], env => .ok env
  | q :: qs, env =>
    if q.id = target then bindInputs target values qs env
    else
      match values[q.id]? with
      | some x => bindInputs target values qs ((Notation.normalize q.symbol, x) :: env)
      | none => .error (.missingVariable q.symbol)

/-- Binds the symbols of constants, over those bound before. -/
def bindConstants (constants : List (Constant ν)) (env : Bindings ν) : Bindings ν :=
  constants.foldl (fun env c => (Notation.normalize c.symbol, c.value) :: env) env

/-- The symbols that the formula may use. -/
def vocabulary (f : LoadedFormula ν) (target : Quantity) : Vocabulary :=
  .ofList (f.quantities.map (Notation.normalize ·.symbol) ++
    f.constants.map (Notation.normalize ·.symbol) ++ [Notation.normalize target.symbol])

/-- The target's symbol in terms of the others. -/
def solution (chain : List (Strategy ν)) (f : LoadedFormula ν) (target : Quantity) :
    Except Error (Expr ν) :=
  let text := Notation.normalize f.formula.expression
  let symbol := Notation.normalize target.symbol
  match Equation.parse (vocabulary f target) text with
  | .ok q => Strategy.rearrange chain q symbol
  | .error cause => Strategy.rearrangeText chain text symbol cause

/-- The value that the formula gives the target. -/
def targetValue (chain : List (Strategy ν)) (f : LoadedFormula ν) (target : Quantity)
    (values : ValueTable ν) : Except Error ν :=
  if Notation.countEquals (Notation.normalize f.formula.expression) ≠ 1 then
    .error (.notAnEquation f.formula.expression)
  else do
    let env ← bindInputs target.id values f.quantities []
    let e ← solution chain f target
    e.value (bindConstants f.constants env)

/-- Solves the formula for the target and records the value. -/
def solve (chain : List (Strategy ν)) (f : LoadedFormula ν) (target : Quantity)
    (values : ValueTable ν) : Except Error ν × ValueTable ν :=
  match targetValue chain f target values with
  | .ok x => (.ok x, values.insert target.id x)
  | .error e => (.error e, values)

end Solver

end FormulaNet

import FormulaNet.Knowledge.Ids
import FormulaNet.Knowledge.Snapshot

/-!
# Sources of knowledge

What the solver needs of a knowledge graph: seven ways to read it, each of which may fail.  Everything
else, such as loading a formula together with what it refers to, is put together from these.
-/

namespace FormulaNet

structure Source where
  quantity : QuantityId → Except Error (Option Quantity)
  idByName : String → Except Error (Option QuantityId)
  /-- All quantities, by ascending id. -/
  allQuantities : Except Error (List Quantity)
  constant : ConstantId → Except Error (Option (Constant Float))
  formula : FormulaId → Except Error (Option Formula)
  /-- The formulas that relate a quantity to others, by ascending id. -/
  formulasReferencing : QuantityId → Except Error (List Formula)
  /-- All formulas, by ascending id. -/
  allFormulas : Except Error (List Formula)

namespace Source

/-- The answer to a look-up that has to succeed. -/
def found {α : Type} (what : Missing) : Option α → Except Error α
  | some a => .ok a
  | none => .error (.notFound what)

def quantityByName (source : Source) (name : String) : Except Error (Option Quantity) := do
  match ← source.idByName name with
  | some id => source.quantity id
  | none => .ok none

/-- A formula together with its quantities and constants, looked up one by one. -/
def load (source : Source) (id : FormulaId) : Except Error (LoadedFormula Float) := do
  let formula ← found (.formula id) (← source.formula id)
  let quantities ← formula.quantities.mapM fun q => do
    found (.quantityOf q id) (← source.quantity q)
  let constants ← formula.constants.mapM fun c => do
    found (.constantOf c id) (← source.constant c)
  .ok { formula, quantities, constants }

/-- The ids of the constants that some formula uses, ascending, each once. -/
def usedConstants (formulas : List Formula) : List ConstantId :=
  Ids.ascending (formulas.flatMap (·.constants))

/-- A copy of the graph with those constants that formulas use. -/
def snapshot (source : Source) : Except Error Snapshot := do
  let quantities ← source.allQuantities
  let formulas ← source.allFormulas
  let constants ← (usedConstants formulas).mapM source.constant
  .ok { quantities, constants := constants.filterMap id, formulas }

end Source

end FormulaNet

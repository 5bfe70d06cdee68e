import FormulaNet.Derivation.Calculation
import FormulaNet.Problem.Reply
import FormulaNet.Settings

/-!
# The engine

`Engine.solve` answers a problem: the forces among the knowns are composed, names are looked up, a
derivation of the target is searched, and its formulas are solved one after the other.  That there is no
derivation is an answer too; errors are reserved for bad input, unknown names, sources that fail and
calculations that fail.

The engine keeps a table of distances from the time it was built.  The source may have grown since; the
table then guides the search less well until it is computed again.
-/

namespace FormulaNet

inductive Answer.Status where
  | solved
  | noPathFound
  | searchBudgetExceeded
  deriving DecidableEq, Repr

/-- The answer to a problem. -/
structure Answer where
  status : Answer.Status
  /-- The value of the target, if the problem is solved. -/
  result : Option Calculated
  /-- Each formula with its calculation. -/
  steps : Derivation
  forces : Option ForceAnalysis
  message : String
  deriving Repr

namespace Answer

def isSolved (a : Answer) : Bool := a.status = .solved

/-- The answer where the target is among the knowns. -/
def known (target : Quantity) (x : Float) (forces : Option ForceAnalysis) : Answer where
  status := .solved
  result := some ⟨target.name, x, target.unit⟩
  steps := []
  forces := forces
  message := s!"{target.name} is already known"

def noPath (target : Quantity) (forces : Option ForceAnalysis) : Answer where
  status := .noPathFound
  result := none
  steps := []
  forces := forces
  message := s!"Could not find a solving path to {target.name}"

def budgetExceeded (expansions : Nat) (forces : Option ForceAnalysis) : Answer where
  status := .searchBudgetExceeded
  result := none
  steps := []
  forces := forces
  message := s!"Search gave up after {expansions} expansions"

/-- The answer after a derivation with so many applications has been carried out. -/
def solved (target : Quantity) (result : Calculated) (applications : Nat) (steps : List Step)
    (forces : Option ForceAnalysis) : Answer where
  status := .solved
  result := some result
  steps := .ofSteps steps
  forces := forces
  message := s!"Solved {target.name} in {applications} step(s)"

end Answer

structure Engine where
  settings : Settings
  table : DistanceTable

namespace Engine

def tableOf (source : Source) : Except Error DistanceTable := do
  let quantities ← source.allQuantities
  let formulas ← source.allFormulas
  .ok (.build quantities formulas)

/-- An engine with valid settings and a table of the source as it is. -/
def build (source : Source) (settings : Settings) : Except Error Engine := do
  settings.validate
  let table ← tableOf source
  .ok { settings, table }

/-- The engine with a new table. -/
def rebuild (e : Engine) (source : Source) : Except Error Engine := do
  let table ← tableOf source
  .ok { e with table }

/-- The values of the knowns whose names the source has; of several with one name the last one counts. -/
def knownValues (source : Source) (knowns : List Known) : Except Error (ValueTable Float) :=
  knowns.foldlM (fun values k => do
    match ← source.idByName k.name with
    | some id => .ok (values.insert id k.value)
    | none => .ok values) ∅

/-- Searches for the target and carries out what was found.  The knowns are handed over by ascending id; in
whatever order they come, it is the same search (`Search.find_eq_of_same_knowns`). -/
def derive (e : Engine) (source : Source) (values : ValueTable Float) (target : Quantity)
    (forces : Option ForceAnalysis) : Except Error Answer := do
  match ← Search.find source e.settings.search e.table values.keys target.id with
  | .noPath _ => .ok (.noPath target forces)
  | .budgetExceeded expansions _ => .ok (.budgetExceeded expansions forces)
  | .found derivation _ _ =>
    let o ← Calculation.run source (Solver.chain e.settings.solver) values derivation
    let result ← o.result target
    .ok (.solved target result derivation.length o.steps forces)

/-- Answers the question for the quantity of that name. -/
def solve (e : Engine) (source : Source) (knowns : List Known) (target : String) :
    Except Error Answer :=
  if knowns.isEmpty then .error (.invalidInput .noKnowns)
  else do
    let (knowns, forces) := ForceAnalysis.substitute e.settings.force knowns
    let target ← Source.found (.quantityNamed target) (← source.quantityByName target)
    let values ← knownValues source knowns
    if values.isEmpty then .error (.notFound .everyKnown)
    else
      match values[target.id]? with
      | some x => .ok (.known target x forces)
      | none => e.derive source values target forces

/-- Answers a problem in plain language. -/
def solveText (e : Engine) (source : Source) (model : LanguageModel) (text : String) :
    Except Error Answer :=
  if Text.isBlankText text then .error (.invalidInput .blankProblem)
  else do
    let p ← Problem.extract model text
    e.solve source p.knowns p.unknown

end Engine

end FormulaNet

import FormulaNet.Derivation.Distance
import FormulaNet.Derivation.Path
import FormulaNet.Knowledge.Source

/-!
# The search for a derivation

A best-first search over the formula graph.  The depth of a quantity is the number of formulas that have
to be applied one after the other to derive it: none for a known, and for the output of a formula one more
than the greatest depth among its inputs.  A formula can be applied once all its quantities but one have
been expanded.  Quantities are expanded in the order of their depth plus an estimate of the depth that
still separates them from the target; the estimate never exceeds the true depth.

The search is bounded.  To run out of its budget is an outcome and no error.
-/

namespace FormulaNet

structure SearchSettings where
  /-- How many quantities may be expanded. -/
  maxExpansions : Nat := 10000
  /-- How many entries may wait. -/
  maxFrontier : Nat := 100000
  deriving DecidableEq, Repr

/-- The formula that yields a quantity, and the quantities it is applied to. -/
structure Origin where
  formula : FormulaId
  inputs : List QuantityId
  deriving DecidableEq, Repr

abbrev Origins := Std.TreeMap QuantityId Origin

inductive SearchOutcome where
  /-- A derivation of the target, whose depth is `cost`. -/
  | found (derivation : Derivation) (cost expansions : Nat)
  | noPath (expansions : Nat)
  | budgetExceeded (expansions frontier : Nat)
  deriving Repr

namespace SearchOutcome

def derivation? : SearchOutcome → Option Derivation
  | found d _ _ => some d
  | _ => none

def expansions : SearchOutcome → Nat
  | found _ _ n | noPath n | budgetExceeded n _ => n

end SearchOutcome

namespace Search

/-! ## The estimate -/

/-- What the estimate of the remaining depth rests on. -/
structure Heuristic where
  table : DistanceTable
  target : QuantityId
  /-- The quantities that share a formula with the target. -/
  near : List QuantityId

/-- Reads the formulas of the target once. -/
def heuristic (source : Source) (table : DistanceTable) (target : QuantityId) :
    Except Error Heuristic := do
  let formulas ← source.formulasReferencing target
  .ok { table, target, near := (formulas.flatMap (·.quantities)).filter (· ≠ target) }

/-- Nothing at the target, one next to it, elsewhere the distance in the table. -/
def Heuristic.estimate (h : Heuristic) (id : QuantityId) : Distance :=
  if id = h.target then .hops 0
  else if id ∈ h.near then .hops 1
  else h.table.distance id h.target

/-! ## The frontier -/

/-- A quantity that waits to be expanded. -/
structure Entry where
  quantity : QuantityId
  depth : Nat
  /-- The depth of the target if it is derived from this quantity, as far as can be told. -/
  total : Distance
  /-- How many entries were put into the frontier before this one. -/
  arrival : Nat
  deriving DecidableEq, Repr

/-- The smaller total goes first, then the smaller id, then the earlier arrival. -/
def Entry.before (a b : Entry) : Bool :=
  !(b.total.le a.total) || (a.total = b.total &&
    (a.quantity < b.quantity || (a.quantity = b.quantity && a.arrival < b.arrival)))

/-- Puts an entry in its place. -/
def push (e : Entry) : List Entry → List Entry
  | [] => [e]
  | a :: rest => if e.before a then e :: a :: rest else a :: push e rest

def Heuristic.entry (h : Heuristic) (id : QuantityId) (depth arrival : Nat) : Entry :=
  ⟨id, depth, (h.estimate id).after depth, arrival⟩

/-! ## The search -/

structure State where
  /-- The least depth found so far. -/
  depths : Std.TreeMap QuantityId Nat
  /-- How that depth is reached; knowns have no origin. -/
  origins : Origins
  /-- The expanded quantities, the last one first. -/
  expanded : List QuantityId
  frontier : List Entry
  /-- How many entries have been put into the frontier so far. -/
  arrivals : Nat

/-- Nothing is known yet. -/
def State.empty : State where
  depths := ∅
  origins := ∅
  expanded := []
  frontier := []
  arrivals := 0

/-- Lets a quantity wait with a depth. -/
def State.wait (s : State) (h : Heuristic) (id : QuantityId) (depth : Nat) : State :=
  { s with
    depths := s.depths.insert id depth
    frontier := push (h.entry id depth s.arrivals) s.frontier
    arrivals := s.arrivals + 1 }

/-- A known waits at depth zero.  One that is given again waits already. -/
def addKnown (h : Heuristic) (s : State) (id : QuantityId) : State :=
  if id ∈ s.depths then s else s.wait h id 0

/-- The knowns wait, put into the frontier in the order in which they are given. -/
def start (h : Heuristic) (known : List QuantityId) : State := known.foldl (addKnown h) .empty

/-- One more than the greatest depth of the inputs; one without inputs. -/
def outputDepth (s : State) (inputs : List QuantityId) : Nat :=
  (((inputs.filterMap (s.depths[·]?)).max?).map (· + 1)).getD 1

/-- Whether a depth is less than the one found so far. -/
def improves (s : State) (id : QuantityId) (depth : Nat) : Bool :=
  match s.depths[id]? with
  | some d => depth < d
  | none => true

/-- Applies a formula, if exactly one of its quantities is not expanded yet and gets a smaller depth. -/
def offer? (h : Heuristic) (s : State) (f : Formula) : Option State :=
  match f.quantities.filter (· ∉ s.expanded) with
  | [output] =>
    let inputs := f.quantities.filter (· ≠ output)
    let depth := outputDepth s inputs
    if improves s output depth then
      some { s.wait h output depth with origins := s.origins.insert output ⟨f.id, inputs⟩ }
    else none
  | _ => none

/-- Applies formulas in turn until the frontier gets too large; then its size is returned. -/
def offerAll (maxFrontier : Nat) (h : Heuristic) (s : State) : List Formula → Except Nat State
  | [] => .ok s
  | f :: fs =>
    match offer? h s f with
    | none => offerAll maxFrontier h s fs
    | some s' =>
      if s'.frontier.length > maxFrontier then .error s'.frontier.length
      else offerAll maxFrontier h s' fs

theorem expanded_offer? {h : Heuristic} {s s' : State} {f : Formula} (hs : offer? h s f = some s') :
    s'.expanded = s.expanded := by
  unfold offer? at hs
  split at hs
  · simp only at hs
    split at hs
    · cases hs; rfl
    · cases hs
  · cases hs

theorem expanded_offerAll {maxFrontier : Nat} {h : Heuristic} {s s' : State} {fs : List Formula}
    (hs : offerAll maxFrontier h s fs = .ok s') : s'.expanded = s.expanded := by
  induction fs generalizing s with
  | nil => cases hs; rfl
  | cons f fs ih =>
    unfold offerAll at hs
    split at hs
    · exact ih hs
    · next ho =>
      split at hs
      · cases hs
      · rw [ih hs, expanded_offer? ho]

/-- An entry whose quantity has been expanded, or has got a smaller depth since. -/
def isStale (s : State) (e : Entry) : Bool :=
  e.quantity ∈ s.expanded || s.depths[e.quantity]? != some e.depth

/-! ## The derivation of the target -/

/-- The quantities to derive for a target, after those in `done` and in the order of derivation: the inputs
of a quantity come before it.  The number bounds the length of a chain of inputs. -/
def order (origins : Origins) : Nat → QuantityId → List QuantityId → List QuantityId
  | 0, _, done => done
  | n + 1, id, done =>
    match origins[id]? with
    | none => done
    | some o =>
      if id ∈ done then done
      else o.inputs.foldl (fun done input => order origins n input done) done ++ [id]

/-- The step that finds a quantity by its origin. -/
def stepOf? (origins : Origins) (id : QuantityId) : Option Step :=
  origins[id]?.map fun o => Step.ofFormula o.formula o.inputs id

/-- The derivation of a target.  A chain of inputs is no longer than the table. -/
def reconstruct (origins : Origins) (target : QuantityId) : Derivation :=
  .ofSteps ((order origins origins.size target []).filterMap (stepOf? origins))

/-- Expands quantities until the target comes up, nothing waits or the budget is used up. -/
def run (source : Source) (settings : SearchSettings) (h : Heuristic) (s : State) :
    Except Error SearchOutcome :=
  match _ : s.frontier with
  | [] => .ok (.noPath s.expanded.length)
  | e :: rest =>
    if isStale s e then run source settings h { s with frontier := rest }
    else if e.quantity = h.target then
      .ok (.found (reconstruct s.origins h.target) e.depth s.expanded.length)
    else if _ : settings.maxExpansions ≤ s.expanded.length then
      .ok (.budgetExceeded s.expanded.length rest.length)
    else
      match source.formulasReferencing e.quantity with
      | .error cause => .error cause
      | .ok formulas =>
        match ho : offerAll settings.maxFrontier h
            { s with expanded := e.quantity :: s.expanded, frontier := rest } formulas with
        | .error size => .ok (.budgetExceeded (s.expanded.length + 1) size)
        | .ok s' => run source settings h s'
termination_by (settings.maxExpansions - s.expanded.length, s.frontier.length)
decreasing_by
  · simp [*, Prod.lex_def]
  · have := expanded_offerAll ho
    simp only [Prod.lex_def, this, List.length_cons]
    omega

/-- Searches for a derivation of the target.  A target among the knowns needs none. -/
def find (source : Source) (settings : SearchSettings) (table : DistanceTable)
    (known : List QuantityId) (target : QuantityId) : Except Error SearchOutcome :=
  if target ∈ known then .ok (.found [] 0 0)
  else do
    let h ← heuristic source table target
    run source settings h (start h known)

end Search

end FormulaNet

import FormulaNet.Derivation.Calculation
import FormulaNet.Proofs.Derivation
import FormulaNet.Proofs.Knowledge.Loading

/-!
# What carrying out a derivation does

Each step of a derivation becomes an application of its formula: the step itself, described in words, and
the value of its output, which also goes into the table.  `exists_applications` states this of a whole run.
-/

namespace FormulaNet

namespace Calculation

variable {c : Catalogue} {chain : List (Strategy Float)} {values values' : ValueTable Float}
variable {d : Derivation} {o : Outcome}

/-! ## Applications -/

/-- A formula applied to some quantities, and what was calculated for another. -/
structure Application where
  formula : Formula
  inputs : List QuantityId
  output : Quantity
  value : Float

namespace Application

def result (p : Application) : Calculated := ⟨p.output.name, p.value, p.output.unit⟩

/-- The two steps of each application, with numbers from a first one on. -/
def stepsFrom (first : Nat) : List Application → List Step
  | [] => []
  | p :: ps =>
    .find first s!"Use formula {p.formula.name} to find {p.output.name}" p.formula.id p.inputs p.output.id ::
      (Step.ofResult p.formula.id p.result).withNumber (first + 1) :: stepsFrom (first + 2) ps

/-- The quantities found, in their order. -/
def outputs (ps : List Application) : List QuantityId := ps.map (·.output.id)

/-- The table of values with those of the applications. -/
def record (values : ValueTable Float) (ps : List Application) : ValueTable Float :=
  ps.foldl (fun values p ↦ values.insert p.output.id p.value) values

end Application

/-- The application carries the step out, with a formula and a quantity of the catalogue. -/
structure Performs (c : Catalogue) (s : Step) (p : Application) : Prop where
  step : ∃ number text, s = .find number text p.formula.id p.inputs p.output.id
  formula : c.formulas[p.formula.id]? = some p.formula
  output : c.quantities[p.output.id]? = some p.output

open Application (stepsFrom outputs record)

/-! ## Runs -/

/-- A formula that is solved yields a value of its output, which goes into the table. -/
theorem solveStep_eq_ok_iff {number : Nat} {f : LoadedFormula Float} {q : Quantity} {r : Calculated} :
    solveStep chain number f q values = .ok (r, values') ↔
      ∃ x, Solver.targetValue chain f q values = .ok x ∧ r = ⟨q.name, x, q.unit⟩ ∧
        values' = values.insert q.id x := by
  unfold solveStep Solver.solve
  cases Solver.targetValue chain f q values with
  | error e => simp
  | ok x => simp [eq_comm]

/-- Carrying out one step and then the others. -/
theorem run_find_eq_ok_iff {source : Source} {number : Nat} {text : String} {formula : FormulaId}
    {inputs : List QuantityId} {output : QuantityId} :
    run source chain values (.find number text formula inputs output :: d) = .ok o ↔
      ∃ f q x rest, source.load formula = .ok f ∧ f.quantity? output = some q ∧
        Solver.targetValue chain f q values = .ok x ∧
        run source chain (values.insert q.id x) d = .ok rest ∧
        o = {
          steps := .find number s!"Use formula {f.formula.name} to find {q.name}" formula inputs output ::
            .ofResult f.formula.id ⟨q.name, x, q.unit⟩ :: rest.steps
          values := rest.values
          last := rest.last.or (some ⟨q.name, x, q.unit⟩) } := by
  rw [run]
  simp only [bind_eq_ok_iff, Source.found_eq_ok_iff, Prod.exists, solveStep_eq_ok_iff, Except.ok.injEq]
  constructor
  · rintro ⟨f, hf, q, hq, r, values', ⟨x, hx, rfl, rfl⟩, rest, hrest, rfl⟩
    exact ⟨f, q, x, rest, hf, hq, hx, hrest, rfl⟩
  · rintro ⟨f, q, x, rest, hf, hq, hx, hrest, rfl⟩
    exact ⟨f, hf, q, hq, _, _, ⟨x, hx, rfl, rfl⟩, rest, hrest, rfl⟩

/-- A run turns the steps of a derivation, one by one, into applications. -/
theorem exists_applications (hc : c.Coherent) (hd : ∀ s ∈ d, s.isFind = true)
    (hrun : run c.source chain values d = .ok o) :
    ∃ ps, List.Forall₂ (Performs c) d ps ∧ (∀ n, Derivation.numberFrom n o.steps = stepsFrom n ps) ∧
      o.values = record values ps ∧ o.last = ps.getLast?.map (·.result) := by
  induction d generalizing values o with
  | nil =>
      cases hrun
      exact ⟨[], .nil, fun _ ↦ rfl, rfl, rfl⟩
  | cons s d ih =>
      cases s with
      | calculation number text formula result => simpa [Step.isFind] using hd _ List.mem_cons_self
      | find number text formula inputs output =>
          obtain ⟨f, q, x, rest, hf, hq, hx, hrest, rfl⟩ := run_find_eq_ok_iff.mp hrun
          obtain ⟨ps, hps, hsteps, hvalues, hlast⟩ := ih (fun s hs ↦ hd s (List.mem_cons_of_mem _ hs)) hrest
          have hload := Catalogue.load_eq_ok_iff.mp hf
          have hoid := hc.quantity?_eq_some hload hq
          obtain rfl : f.formula.id = formula := hc.formula_id hload.formula
          obtain rfl : q.id = output := hc.quantity_id hoid
          refine ⟨⟨f.formula, inputs, q, x⟩ :: ps, .cons ⟨⟨number, text, rfl⟩, hload.formula, hoid⟩ hps, ?_,
            hvalues, ?_⟩
          · intro n
            rw [stepsFrom, ← hsteps]
            rfl
          · rw [List.getLast?_cons, hlast]
            cases ps.getLast? <;> rfl

/-! ## Reading applications -/

theorem outputs_eq {ps : List Application} (h : List.Forall₂ (Performs c) d ps) :
    Derivation.outputs d = outputs ps := by
  induction h with
  | nil => rfl
  | cons hp _ ih =>
      obtain ⟨number, text, rfl⟩ := hp.step
      exact congrArg (_ :: ·) ih

end Calculation

end FormulaNet

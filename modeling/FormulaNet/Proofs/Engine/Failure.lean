import FormulaNet.Proofs.Engine

/-!
# How answering can fail once a derivation is found

A derivation that the search has found can be carried out step by step: whenever a step is reached, its
formula can be loaded, holds the quantity to be found, and every other quantity of it has a value.  All that
is left to fail is the formula itself, which may have no solution or no value.  The error then names the step,
and all steps before it have been solved.
-/

namespace FormulaNet

/-! ## Numbers -/

/-- The steps of a numbered list count on from the first number. -/
theorem Derivation.number_of_numberFrom {n : Nat} {steps before after : List Step} {s : Step}
    (h : numberFrom n steps = before ++ s :: after) : s.number = n + before.length := by
  induction before generalizing n steps with
  | nil =>
      cases steps with
      | nil => cases h
      | cons t steps =>
          obtain ⟨rfl, -⟩ := List.cons.inj h
          exact Step.number_withNumber n t
  | cons u before ih =>
      cases steps with
      | nil => cases h
      | cons t steps =>
          obtain ⟨-, h⟩ := List.cons.inj h
          rw [ih h, List.length_cons]
          omega

/-- Every quantity but the target has a symbol bound to it if all of them have values. -/
theorem Solver.exists_bindInputs {target : QuantityId} {values : ValueTable Float} {qs : List Quantity}
    {env : Bindings Float} (h : ∀ p ∈ qs, p.id ≠ target → p.id ∈ values) :
    ∃ env', bindInputs target values qs env = .ok env' := by
  induction qs generalizing env with
  | nil => exact ⟨env, rfl⟩
  | cons q qs ih =>
      obtain ⟨hq, hqs⟩ := List.forall_mem_cons.mp h
      rw [bindInputs]
      split
      · exact ih hqs
      · next hne =>
        obtain ⟨x, hx⟩ := Table.exists_of_mem (hq hne)
        rw [hx]
        exact ih hqs

namespace Calculation

variable {source : Source} {c : Catalogue} {chain : List (Strategy Float)} {values : ValueTable Float}
variable {d before after : Derivation} {s : Step} {o : Outcome} {e : Error}
variable {f : LoadedFormula Float} {q : Quantity}

/-! ## Runs in parts -/

/-- What has been done after one run and a second one that goes on from its values. -/
def Outcome.andThen (o o' : Outcome) : Outcome := ⟨o.steps ++ o'.steps, o'.values, o'.last.or o.last⟩

theorem run_cons :
    run source chain values (s :: d) =
      run source chain values [s] >>= fun o ↦ (run source chain o.values d).map o.andThen := by
  cases s with
  | calculation number text formula result =>
      have hnil : ∀ o, Outcome.andThen ⟨[], values, none⟩ o = o := fun o ↦ by simp [Outcome.andThen]
      change run source chain values d = (run source chain values d).map (Outcome.andThen ⟨[], values, none⟩)
      cases run source chain values d with
      | error e => rfl
      | ok o => exact congrArg Except.ok (hnil o).symm
  | find number text formula inputs output =>
      simp only [run]
      cases source.load formula with
      | error e => rfl
      | ok f =>
      cases hq : Source.found (.outputOf output formula) (f.quantity? output) with
      | error e => simp only [bind, Except.bind, hq]
      | ok q =>
      cases hr : solveStep chain number f q values with
      | error e => simp only [bind, Except.bind, hq, hr]
      | ok r =>
      simp only [bind, Except.bind, hq, hr]
      cases run source chain r.2 d <;> rfl

/-- A run that fails has come to a step that fails. -/
theorem exists_failing (h : run source chain values d = .error e) :
    ∃ before s after o, d = before ++ s :: after ∧ run source chain values before = .ok o ∧
      run source chain o.values [s] = .error e := by
  induction d generalizing values with
  | nil => cases h
  | cons s d ih =>
      rw [run_cons] at h
      cases hs : run source chain values [s] with
      | error e' =>
          rw [hs] at h
          exact ⟨[], s, d, ⟨[], values, none⟩, rfl, rfl, hs.trans h⟩
      | ok o =>
          rw [hs] at h
          cases hd : run source chain o.values d with
          | ok o' =>
              simp [bind, Except.bind, hd, Except.map] at h
          | error e' =>
              obtain rfl : e' = e := by simpa [bind, Except.bind, hd, Except.map] using h
              obtain ⟨before, t, after, o', rfl, hbefore, ht⟩ := ih hd
              refine ⟨s :: before, t, after, o.andThen o', rfl, ?_, ht⟩
              rw [run_cons, hs]
              exact congrArg (Except.map o.andThen) hbefore

/-- The quantities with a value after a run are those with one before and those found. -/
theorem mem_values_of_run (hc : c.Coherent) (hd : ∀ s ∈ d, s.isFind = true)
    (hrun : run c.source chain values d = .ok o) {p : QuantityId} :
    p ∈ o.values ↔ p ∈ values ∨ p ∈ d.outputs := by
  obtain ⟨ps, hps, -, hvalues, -⟩ := exists_applications hc hd hrun
  have record : ∀ (ps : List Application) (values : ValueTable Float),
      p ∈ Application.record values ps ↔ p ∈ values ∨ p ∈ Application.outputs ps := by
    intro ps
    induction ps with
    | nil => simp [Application.record, Application.outputs]
    | cons a ps ih =>
        intro values
        change p ∈ Application.record (values.insert a.output.id a.value) ps ↔ _
        rw [ih, Std.TreeMap.mem_insert, Nat.compare_eq_eq, Application.outputs, Application.outputs,
          List.map_cons, List.mem_cons, @eq_comm _ p]
        tauto
  rw [hvalues, outputs_eq hps, record]

/-! ## Steps with everything at hand -/

/-- The step's formula can be loaded and holds the quantity to be found, and every other quantity of it has
a value. -/
structure Prepared (c : Catalogue) (values : ValueTable Float) (s : Step) (f : LoadedFormula Float)
    (q : Quantity) : Prop where
  step : ∃ text inputs, s = .find s.number text f.formula.id inputs q.id
  load : c.source.load f.formula.id = .ok f
  output : f.quantity? q.id = some q
  inputs : ∀ p ∈ f.quantities, p.id ≠ q.id → p.id ∈ values

namespace Prepared

/-- No input of a prepared step is missing. -/
theorem exists_bindInputs (h : Prepared c values s f q) :
    ∃ env, Solver.bindInputs q.id values f.quantities [] = .ok env :=
  Solver.exists_bindInputs h.inputs

/-- A prepared step fails only if its formula gives no value. -/
theorem run_eq_error_iff (h : Prepared c values s f q) :
    run c.source chain values [s] = .error e ↔
      ∃ cause, Solver.targetValue chain f q values = .error cause ∧ e = .calculationFailed s.number cause := by
  obtain ⟨text, inputs, hs⟩ := h.step
  rw [hs]
  simp only [run, h.load, h.output, Source.found, solveStep, Solver.solve, bind, Except.bind, Step.number]
  cases Solver.targetValue chain f q values with
  | error cause => simp [eq_comm]
  | ok x => simp

end Prepared

/-- Whenever a run of a derivation comes to a step, the step is prepared. -/
theorem exists_prepared {target : QuantityId} {cost : Nat} (hc : c.Coherent)
    (hd : Derivation.Derives c.allFormulas values.keys target cost (before ++ s :: after))
    (hrun : run c.source chain values before = .ok o) : ∃ f q, Prepared c o.values s f q := by
  have hfinds : ∀ t ∈ before, t.isFind = true := fun t ht ↦ (hd.applies t (List.mem_append_left _ ht)).isFind
  obtain ⟨g, hg, i, hi, number, text, rfl⟩ := hd.applies s (by simp)
  obtain ⟨f, hf, rfl⟩ := hc.exists_of (hc.mem_allFormulas.mp hg)
  obtain ⟨q, hq⟩ := hc.exists_quantity? hf hi
  obtain rfl : q.id = i := hc.quantity_id (hc.quantity?_eq_some hf hq)
  refine ⟨f, q, ⟨text, _, rfl⟩, Catalogue.load_eq_ok_iff.mpr hf, hq, fun p hp hne ↦ ?_⟩
  have hpf : p.id ∈ f.formula.quantities := by
    rw [← hc.quantity_ids hf]
    exact List.mem_map_of_mem hp
  have hinput := Derivation.available_of_isWellOrdered hd.wellOrdered (Formula.mem_others.mpr ⟨hpf, hne⟩)
  rw [Std.TreeMap.mem_keys] at hinput
  exact (mem_values_of_run hc hfinds hrun).mpr hinput

/-- The steps of the derivation before the one with this number are solved, and the formula of that step gives
no value, for the stated cause. -/
def FailsAt (c : Catalogue) (chain : List (Strategy Float)) (values : ValueTable Float) (d : Derivation)
    (number : Nat) (cause : Error) : Prop :=
  ∃ before s after o f q, d = before ++ s :: after ∧ number = before.length + 1 ∧
    run c.source chain values before = .ok o ∧ Prepared c o.values s f q ∧
    Solver.targetValue chain f q o.values = .error cause

end Calculation

namespace Engine

open Calculation (Prepared FailsAt)

variable {source : Source} {c : Catalogue} {e : Engine} {knowns : List Known} {values : ValueTable Float}
variable {name : String} {target : Quantity} {d : Derivation}

/-! ## The question up to the derivation -/

/-- On its way to an answer the engine finds the derivation `d` of the target from the quantities that have
values at first. -/
structure Reaches (e : Engine) (source : Source) (knowns : List Known) (name : String) (target : Quantity)
    (values : ValueTable Float) (d : Derivation) : Prop where
  given : knowns ≠ []
  named : source.quantityByName name = .ok (some target)
  valued : knownValues source (ForceAnalysis.substitute e.settings.force knowns).1 = .ok values
  nonempty : values.isEmpty = false
  unknown : values[target.id]? = none
  found : ∃ cost n, Search.find source e.settings.search e.table values.keys target.id = .ok (.found d cost n)

/-- What remains to be done is to carry the derivation out and to read off the result. -/
theorem Reaches.solve_eq (h : e.Reaches source knowns name target values d) :
    e.solve source knowns name =
      Calculation.run source (Solver.chain e.settings.solver) values d >>= fun o ↦
        o.result target >>= fun result ↦ .ok
          (.solved target result d.length o.steps (ForceAnalysis.substitute e.settings.force knowns).2) := by
  obtain ⟨cost, n, hfind⟩ := h.found
  have hderive : ∀ forces, e.derive source values target forces =
      Calculation.run source (Solver.chain e.settings.solver) values d >>= fun o ↦
        o.result target >>= fun result ↦ .ok (.solved target result d.length o.steps forces) := by
    intro forces
    rw [derive, hfind]
    rfl
  have hvalues := h.valued
  unfold solve
  rw [if_neg (by simpa using h.given)]
  cases hsub : ForceAnalysis.substitute e.settings.force knowns with
  | mk others forces =>
  rw [hsub] at hvalues
  rw [← hderive forces]
  simp only [h.named, hvalues, h.nonempty, h.unknown, Source.found, bind, Except.bind, Bool.false_eq_true,
    ↓reduceIte]

theorem Reaches.target_notMem (h : e.Reaches source knowns name target values d) :
    target.id ∉ values.keys := by
  rw [Std.TreeMap.mem_keys, Std.TreeMap.mem_iff_isSome_getElem?, h.unknown]
  exact Bool.false_ne_true

theorem Reaches.derives (hc : c.Coherent) (h : e.Reaches c.source knowns name target values d) :
    ∃ cost, Derivation.Derives c.allFormulas values.keys target.id cost d := by
  obtain ⟨cost, n, hfind⟩ := h.found
  exact ⟨cost, Search.derives_of_find hc.lists h.target_notMem hfind⟩

/-- The steps of a derivation that has been found are numbered from one. -/
theorem Reaches.number_eq {before after : Derivation} {s : Step}
    (h : e.Reaches source knowns name target values (before ++ s :: after)) :
    s.number = before.length + 1 := by
  obtain ⟨cost, n, hfind⟩ := h.found
  obtain ⟨_, _, _, _, -, -, -, -, hd, -⟩ := Search.find_eq_found h.target_notMem hfind
  rw [Derivation.number_of_numberFrom hd.symm, Nat.add_comm]

/-! ## The way to the answer -/

/-- How the engine carries out the derivation. -/
structure CarriesOut (c : Catalogue) (e : Engine) (knowns : List Known) (name : String) (target : Quantity)
    (values : ValueTable Float) (d : Derivation) : Prop where
  /-- Whenever a step is reached, everything is at hand for it, so that no input is missing. -/
  prepared : ∀ before s after o, d = before ++ s :: after →
    Calculation.run c.source (Solver.chain e.settings.solver) values before = .ok o →
    s.number = before.length + 1 ∧ ∃ f q, Prepared c o.values s f q ∧
      ∃ env, Solver.bindInputs q.id o.values f.quantities [] = .ok env
  /-- Either all steps are solved and there is an answer, or the error names the first step that is not. -/
  ends : (∃ o result, Calculation.run c.source (Solver.chain e.settings.solver) values d = .ok o ∧
      e.solve c.source knowns name = .ok (.solved target result d.length o.steps
        (ForceAnalysis.substitute e.settings.force knowns).2)) ∨
    ∃ number cause, FailsAt c (Solver.chain e.settings.solver) values d number cause ∧
      e.solve c.source knowns name = .error (.calculationFailed number cause)

/-- A derivation that has been carried out has a result. -/
theorem exists_result {chain : List (Strategy Float)} {o : Calculation.Outcome} {cost : Nat}
    (hc : c.Coherent) (hd : Derivation.Derives c.allFormulas values.keys target.id cost d)
    (hrun : Calculation.run c.source chain values d = .ok o) : ∃ result, o.result target = .ok result := by
  have hfinds : ∀ s ∈ d, s.isFind = true := fun s hs ↦ (hd.applies s hs).isFind
  have htarget : target.id ∈ d.outputs := by
    obtain ⟨s, hs, hout⟩ := Option.bind_eq_some_iff.mp hd.last
    exact List.mem_filterMap.mpr ⟨s, List.mem_of_getLast? hs, hout⟩
  have hvalue := (Calculation.mem_values_of_run hc hfinds hrun).mpr (.inr htarget)
  obtain ⟨x, hx⟩ := Table.exists_of_mem hvalue
  exact ⟨⟨target.name, x, target.unit⟩, by rw [Calculation.Outcome.result, hx]⟩

/-- **What has been found can be carried out**, as far as the formulas go.  Whatever table of distances has
guided the search: each step that is reached finds its formula, its constants, its output and the values of
all its inputs, and there is a result after the last one.  Nothing but a formula without a value ends the
answer early, with an error that names its step. -/
theorem carriesOut_of_reaches (hc : c.Grown) (h : e.Reaches c.source knowns name target values d) :
    CarriesOut c e knowns name target values d := by
  obtain ⟨cost, hd⟩ := h.derives hc.coherent
  refine ⟨?_, ?_⟩
  · rintro before s after o rfl hrun
    obtain ⟨f, q, hprepared⟩ := Calculation.exists_prepared hc.coherent hd hrun
    exact ⟨h.number_eq, f, q, hprepared, hprepared.exists_bindInputs⟩
  · rw [h.solve_eq]
    cases hrun : Calculation.run c.source (Solver.chain e.settings.solver) values d with
    | ok o =>
        obtain ⟨result, hresult⟩ := exists_result hc.coherent hd hrun
        refine .inl ⟨o, result, rfl, ?_⟩
        simp only [bind, Except.bind, hresult]
    | error err =>
        obtain ⟨before, s, after, o, rfl, hbefore, hs⟩ := Calculation.exists_failing hrun
        obtain ⟨f, q, hprepared⟩ := Calculation.exists_prepared hc.coherent hd hbefore
        obtain ⟨cause, hcause, rfl⟩ := hprepared.run_eq_error_iff.mp hs
        exact .inr ⟨s.number, cause,
          ⟨before, s, after, o, f, q, rfl, h.number_eq, hbefore, hprepared, hcause⟩, rfl⟩

/-- From mass, velocity and time an engine without a table finds the force in two steps. -/
theorem carriesOut_force :
    ∃ target values d, Catalogue.mechanics.Grown ∧
      (⟨{}, .empty⟩ : Engine).Reaches Catalogue.mechanics.source
        [{ name := "mass", value := 2 }, { name := "velocity", value := 6 }, { name := "time", value := 3 }]
        "force" target values d ∧
      d.length = 2 ∧
      CarriesOut Catalogue.mechanics ⟨{}, .empty⟩
        [{ name := "mass", value := 2 }, { name := "velocity", value := 6 }, { name := "time", value := 3 }]
        "force" target values d := by
  have hreaches : (⟨{}, .empty⟩ : Engine).Reaches Catalogue.mechanics.source
      [{ name := "mass", value := 2 }, { name := "velocity", value := 6 }, { name := "time", value := 3 }]
      "force" { id := 1, name := "force", symbol := "F", unit := "N" }
      ((((∅ : ValueTable Float).insert 2 2).insert 5 6).insert 4 3)
      [.find 1 "Use formula 2 to find quantity 3" 2 [5, 4] 3,
        .find 2 "Use formula 1 to find quantity 1" 1 [2, 3] 1] := {
    given := List.cons_ne_nil _ _
    named := rfl
    valued := rfl
    nonempty := rfl
    unknown := rfl
    found := ⟨2, 4, Search.find_eq_of_runFor (n := 9) (by decide) rfl rfl⟩ }
  exact ⟨_, _, _, Catalogue.grown_mechanics, hreaches, rfl,
    carriesOut_of_reaches Catalogue.grown_mechanics hreaches⟩

end Engine

end FormulaNet

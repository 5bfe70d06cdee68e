import FormulaNet.Engine
import FormulaNet.Proofs.Calculation
import FormulaNet.Proofs.Rearrangement.Solver
import FormulaNet.Proofs.Search.Founded

/-!
# What the engine answers

An answer that solves a problem shows its work: `Answer.Shows` says what the steps of an answer have to be
so that a reader can follow them from the knowns to the result.  The engine gives no other answers, however
old its table of distances is.
-/

namespace FormulaNet

open Calculation (Application)
open Calculation.Application (stepsFrom outputs)

/-- The answer consists of applications of formulas that lead from knowns to the target. -/
structure Answer.Shows (c : Catalogue) (known : List QuantityId) (target : Quantity) (a : Answer)
    (ps : List Application) : Prop where
  /-- Each formula is followed by its calculation, and the steps are numbered from one. -/
  steps : a.steps = stepsFrom 1 ps
  /-- The formulas and the quantities they find are kept in the catalogue. -/
  stored : ∀ p ∈ ps, c.formulas[p.formula.id]? = some p.formula ∧ c.quantities[p.output.id]? = some p.output
  /-- Inputs are known or found before. -/
  available : ∀ before p after, ps = before ++ p :: after →
    ∀ q ∈ p.inputs, q ∈ known ∨ q ∈ outputs before
  unknown : ∀ q ∈ outputs ps, q ∉ known
  nodup : (outputs ps).Nodup
  /-- The target comes last, and its value is the result. -/
  last : ∃ before p, ps = before ++ [p] ∧ p.output = target ∧ a.result = some p.result

/-- Only which quantities are known matters. -/
theorem Answer.Shows.congr_known {c : Catalogue} {known known' : List QuantityId} {target : Quantity}
    {a : Answer} {ps : List Application} (h : a.Shows c known target ps) (hk : ∀ q, q ∈ known ↔ q ∈ known') :
    a.Shows c known' target ps where
  steps := h.steps
  stored := h.stored
  available before p after hps q hq := (h.available before p after hps q hq).imp_left (hk q).mp
  unknown q hq hq' := h.unknown q hq ((hk q).mpr hq')
  nodup := h.nodup
  last := h.last

namespace Engine

variable {c : Catalogue} {e : Engine} {knowns : List Known} {values : ValueTable Float}
variable {target : Quantity} {forces : Option ForceAnalysis} {a : Answer}

/-! ## The knowns -/

/-- The quantities of the knowns whose names the catalogue has. -/
def resolved (c : Catalogue) (knowns : List Known) : List QuantityId := knowns.filterMap (c.names[·.name]?)

/-- The quantities with a value at first are the resolved knowns. -/
theorem mem_knownValues (h : knownValues c.source knowns = .ok values) {q : QuantityId} :
    q ∈ values ↔ q ∈ resolved c knowns := by
  have hinv := foldlM_induction
    (P := fun ks values ↦ ∀ q, q ∈ resolved c knowns ↔ q ∈ values ∨ q ∈ resolved c ks)
    (fun k ks b b' hb hstep q ↦ ?_) (by simp) h
  · rw [hinv q, resolved, List.filterMap_nil]
    simp
  · rw [hb q]
    simp only [Catalogue.source, bind_eq_ok_iff, Except.ok.injEq, exists_eq_left'] at hstep
    simp only [resolved, List.filterMap_cons]
    cases hk : c.names[k.name]? with
    | none =>
        rw [hk] at hstep
        cases hstep
        rfl
    | some i =>
        rw [hk] at hstep
        cases hstep
        rw [Std.TreeMap.mem_insert, Nat.compare_eq_eq, List.mem_cons, @eq_comm _ q i]
        tauto

/-- A quantity found by its name is the one that the catalogue keeps under that name. -/
theorem quantityByName_eq_ok (hc : c.Coherent) {name : String}
    (h : c.source.quantityByName name = .ok (some target)) :
    target.name = name ∧ c.quantities[target.id]? = some target := by
  obtain ⟨found, hfound, h⟩ := bind_eq_ok_iff.mp h
  obtain rfl : c.names[name]? = found := Except.ok.inj hfound
  cases hn : c.names[name]? with
  | none =>
      rw [hn] at h
      cases h
  | some i =>
      rw [hn] at h
      have hi : c.quantities[i]? = some target := Except.ok.inj h
      obtain ⟨q, hq, hname⟩ := hc.names_iff.mp hn
      obtain rfl : target = q := Option.some.inj (hi.symm.trans hq)
      exact ⟨hname, (hc.quantity_id hi).symm ▸ hi⟩

/-! ## Carrying out what was found -/

/-- The value of the target after all applications is the one of the last. -/
theorem result_eq {o : Calculation.Outcome} {ps : List Application} {p : Application}
    (h : o.values = Application.record values (ps ++ [p])) (hp : p.output = target) :
    o.result target = .ok p.result := by
  have hvalue : o.values[target.id]? = some p.value := by
    rw [h, Application.record, List.foldl_append, hp.symm]
    simp
  unfold Calculation.Outcome.result
  rw [hvalue, ← hp]
  rfl

/-- Once a derivation has been carried out, the answer shows what was done. -/
theorem exists_shows_of_run {chain : List (Strategy Float)} {d : Derivation} {o : Calculation.Outcome}
    {known : List QuantityId} {formulas : List Formula} {cost : Nat} {result : Calculated} (hc : c.Coherent)
    (ht : c.quantities[target.id]? = some target) (hd : d.Derives formulas known target.id cost)
    (hrun : Calculation.run c.source chain values d = .ok o) (hresult : o.result target = .ok result) :
    ∃ ps, (Answer.solved target result d.length o.steps forces).Shows c known target ps := by
  have hfinds : ∀ s ∈ d, s.isFind = true := fun s hs ↦ (hd.applies s hs).isFind
  obtain ⟨ps, hps, hsteps, hvalues, -⟩ := Calculation.exists_applications hc hfinds hrun
  have houtputs := Calculation.outputs_eq hps
  refine ⟨ps, hsteps 1, ?_, ?_, ?_, ?_, ?_⟩
  · intro p hp
    obtain ⟨s, -, hperf⟩ := exists_of_mem_right hps hp
    exact ⟨hperf.formula, hperf.output⟩
  · rintro before p after rfl q hq
    obtain ⟨front, s, back, rfl, hfront, hperf, -⟩ := exists_split_left hps
    obtain ⟨number, text, rfl⟩ := hperf.step
    rw [← Calculation.outputs_eq hfront]
    exact Derivation.available_of_isWellOrdered hd.wellOrdered hq
  · rw [← houtputs]
    exact hd.unknown
  · rw [← houtputs]
    exact hd.nodup
  · rcases List.eq_nil_or_concat ps with rfl | ⟨before, p, rfl⟩
    · obtain rfl := List.forall₂_nil_right_iff.mp hps
      cases hd.last
    · rw [List.concat_eq_append] at hps hvalues ⊢
      obtain ⟨front, s, back, rfl, -, hperf, hback⟩ := exists_split_left hps
      obtain rfl := List.forall₂_nil_right_iff.mp hback
      obtain ⟨number, text, rfl⟩ := hperf.step
      -- the last step finds the target, which has but one entry in the catalogue
      have hid : p.output.id = target.id := by simpa [Step.output?] using hd.last
      have htarget : p.output = target := Option.some.inj ((hid ▸ hperf.output).symm.trans ht)
      have hvalue := result_eq hvalues htarget
      exact ⟨before, p, rfl, htarget, congrArg some (Except.ok.inj (hresult.symm.trans hvalue))⟩

/-- What the engine does once the target has to be searched for. -/
theorem derive_answers (hc : c.Coherent) (ht : c.quantities[target.id]? = some target)
    (hunknown : target.id ∉ values) (ha : e.derive c.source values target forces = .ok a) :
    (a.status = .solved → ∃ ps, a.Shows c values.keys target ps) ∧
      (a.status ≠ .solved → a.result = none ∧ a.steps = []) := by
  obtain ⟨outcome, hfind, ha⟩ := bind_eq_ok_iff.mp ha
  cases outcome with
  | noPath n =>
      cases ha
      exact ⟨(nomatch ·), fun _ ↦ ⟨rfl, rfl⟩⟩
  | budgetExceeded n m =>
      cases ha
      exact ⟨(nomatch ·), fun _ ↦ ⟨rfl, rfl⟩⟩
  | found d cost n =>
      obtain ⟨o, hrun, ha⟩ := bind_eq_ok_iff.mp ha
      obtain ⟨result, hresult, ha⟩ := bind_eq_ok_iff.mp ha
      cases ha
      refine ⟨fun _ ↦ ?_, fun h ↦ absurd rfl h⟩
      have hd := Search.derives_of_find hc.lists (by simpa using hunknown) hfind
      exact exists_shows_of_run hc ht hd hrun hresult

/-- An answer says that the target is known already, or comes from a search. -/
theorem solve_eq_ok {source : Source} {name : String} (h : e.solve source knowns name = .ok a) :
    ∃ target values, source.quantityByName name = .ok (some target) ∧
      knownValues source (ForceAnalysis.substitute e.settings.force knowns).1 = .ok values ∧
      ((∃ x, values[target.id]? = some x ∧
          a = .known target x (ForceAnalysis.substitute e.settings.force knowns).2) ∨
        target.id ∉ values ∧
          e.derive source values target (ForceAnalysis.substitute e.settings.force knowns).2 = .ok a) := by
  unfold solve at h
  split at h
  · cases h
  · cases hsub : ForceAnalysis.substitute e.settings.force knowns with
    | mk others forces =>
    rw [hsub] at h
    obtain ⟨found, hfound, hnamed⟩ := bind_eq_ok_iff.mp h
    obtain ⟨target, htarget, hknown⟩ := bind_eq_ok_iff.mp hnamed
    obtain ⟨values, hvalues, h⟩ := bind_eq_ok_iff.mp hknown
    refine ⟨target, values, by rw [hfound, Source.found_eq_ok_iff.mp htarget], hvalues, ?_⟩
    split at h
    · cases h
    · split at h
      · next x hx =>
        cases h
        exact .inl ⟨x, hx, rfl⟩
      · next hnone => exact .inr ⟨by simp [Std.TreeMap.mem_iff_isSome_getElem?, hnone], h⟩

/-- **Answers show their work.**  Whatever table of distances the engine has, and whatever its settings: the
steps of an answer that solves a problem apply formulas of the catalogue, each followed by its calculation,
to resolved knowns or to what was found before, find nothing twice and nothing known, and end with the target,
whose value is the result.  An answer that does not solve the problem has neither result nor steps. -/
theorem solve_shows {name : String} (hc : c.Grown) (ha : e.solve c.source knowns name = .ok a) :
    (a.status = .solved → a.steps ≠ [] → ∃ target ps, target.name = name ∧
      a.Shows c (resolved c (ForceAnalysis.substitute e.settings.force knowns).1) target ps) ∧
    (a.status ≠ .solved → a.result = none ∧ a.steps = []) := by
  obtain ⟨target, values, hfound, hvalues, ha⟩ := solve_eq_ok ha
  obtain ⟨hname, hstored⟩ := quantityByName_eq_ok hc.coherent hfound
  rcases ha with ⟨x, -, rfl⟩ | ⟨hunknown, ha⟩
  · exact ⟨fun _ h ↦ absurd rfl h, fun h ↦ absurd rfl h⟩
  · obtain ⟨hsolved, hunsolved⟩ := derive_answers hc.coherent hstored hunknown ha
    refine ⟨fun h _ ↦ ?_, hunsolved⟩
    obtain ⟨ps, hps⟩ := hsolved h
    exact ⟨target, ps, hname, hps.congr_known fun q ↦ Std.TreeMap.mem_keys.trans (mem_knownValues hvalues)⟩

/-- From a velocity and a time an engine without a table finds the acceleration, and shows how. -/
theorem solve_shows_acceleration :
    ∃ a target ps,
      (⟨{}, .empty⟩ : Engine).solve Catalogue.mechanics.source
          [{ name := "velocity", value := 6 }, { name := "time", value := 3 }] "acceleration" = .ok a ∧
        a.status = .solved ∧ a.steps ≠ [] ∧ target.name = "acceleration" ∧
        a.Shows Catalogue.mechanics [5, 4] target ps := by
  -- doubles have no equality to decide, so what the quotient is stays open
  have hquotient :
      ((Expr.sym "v" / Expr.sym "t" : Expr Float).value [("t", 3), ("v", 6)]).toOption.isSome := by
    decide +kernel
  obtain ⟨x, hx⟩ := Option.isSome_iff_exists.mp hquotient
  have hfind : Search.find Catalogue.mechanics.source {} .empty (Solver.readings (ν := Float) 6 3).keys 3 =
      .ok (.found [.find 1 "Use formula 2 to find quantity 3" 2 [5, 4] 3] 1 2) :=
    Search.find_eq_of_runFor (n := 9) (by decide) rfl rfl
  obtain ⟨o, hrun, hsteps, hresult⟩ : ∃ o : Calculation.Outcome,
      Calculation.run Catalogue.mechanics.source (Solver.chain {}) (Solver.readings 6 3)
          [.find 1 "Use formula 2 to find quantity 3" 2 [5, 4] 3] = .ok o ∧
        Derivation.ofSteps o.steps ≠ [] ∧
        o.result Solver.acceleration = .ok ⟨"acceleration", x, "m/s^2"⟩ := by
    refine ⟨_, Calculation.run_find_eq_ok_iff.mpr ⟨Solver.speedingUp Float, Solver.acceleration, x,
      ⟨[], (Solver.readings 6 3).insert 3 x, none⟩, rfl, rfl, ?_, rfl, rfl⟩, (nomatch ·), ?_⟩
    · exact Solver.targetValue_acceleration.mpr (eq_ok_of_toOption hx)
    · rw [Calculation.Outcome.result, show Solver.acceleration.id = 3 from rfl,
        Std.TreeMap.getElem?_insert_self]
      rfl
  have hderive :
      (⟨{}, .empty⟩ : Engine).derive Catalogue.mechanics.source (Solver.readings 6 3) Solver.acceleration
          none =
        .ok (.solved Solver.acceleration ⟨"acceleration", x, "m/s^2"⟩ 1 o.steps none) :=
    bind_eq_ok_iff.mpr ⟨_, hfind, bind_eq_ok_iff.mpr ⟨o, hrun, bind_eq_ok_iff.mpr ⟨_, hresult, rfl⟩⟩⟩
  have hsolve : (⟨{}, .empty⟩ : Engine).solve Catalogue.mechanics.source
      [{ name := "velocity", value := 6 }, { name := "time", value := 3 }] "acceleration" =
        .ok (.solved Solver.acceleration ⟨"acceleration", x, "m/s^2"⟩ 1 o.steps none) :=
    bind_eq_ok_iff.mpr ⟨some Solver.acceleration, rfl, bind_eq_ok_iff.mpr ⟨Solver.acceleration, rfl,
      bind_eq_ok_iff.mpr ⟨Solver.readings 6 3, rfl, hderive⟩⟩⟩
  obtain ⟨target, ps, hname, hshows⟩ := (solve_shows Catalogue.grown_mechanics hsolve).1 rfl hsteps
  exact ⟨_, target, ps, hsolve, rfl, hsteps, hname, hshows⟩

end Engine

end FormulaNet

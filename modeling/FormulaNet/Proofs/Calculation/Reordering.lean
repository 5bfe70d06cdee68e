import FormulaNet.Proofs.Calculation
import FormulaNet.Proofs.Knowledge.Integrity
import FormulaNet.Proofs.Rearrangement.Frame
import FormulaNet.Proofs.Search.Founded

/-!
# Carrying out a derivation in another order

A derivation fixes an order of its steps, but any order will do in which the inputs of each step come before
it.  The table of values at the end settles all steps at once: under it each formula yields the value that the
table has for its output.  Conversely, an order in which the inputs come first computes nothing but the values
of a table that settles its steps.
-/

namespace FormulaNet

namespace Calculation

variable {source : Source} {chain : List (Strategy Float)} {values settled : ValueTable Float}
variable {d d' : Derivation} {s : Step} {o : Outcome} {known : List QuantityId}

/-- Besides its output, the formula of the step relates only the inputs of the step. -/
def Covered (source : Source) : Step → Prop
  | .find _ _ formula inputs output =>
    ∀ f, source.load formula = .ok f → ∀ p ∈ f.quantities, p.id ≠ output → p.id ∈ inputs
  | .calculation .. => True

/-- With this table the formula of the step yields the value that the table has for the step's output. -/
def Settles (source : Source) (chain : List (Strategy Float)) (values : ValueTable Float) : Step → Prop
  | .find _ _ formula _ output => ∃ f q x, source.load formula = .ok f ∧ f.quantity? output = some q ∧
      Solver.targetValue chain f q values = .ok x ∧ values[output]? = some x
  | .calculation .. => True

theorem id_of_quantity? {f : LoadedFormula Float} {q : Quantity} {output : QuantityId}
    (h : f.quantity? output = some q) : q.id = output := by
  simpa using List.find?_some h

/-- Steps that are no applications are passed over. -/
theorem run_calculation {number : Nat} {text : String} {formula : FormulaId} {result : Calculated} :
    run source chain values (.calculation number text formula result :: d) = run source chain values d :=
  rfl

/-! ## What a run leaves alone -/

/-- Only the outputs of a derivation get new values. -/
theorem getElem?_of_run (hrun : run source chain values d = .ok o) {p : QuantityId} (hp : p ∉ d.outputs) :
    o.values[p]? = values[p]? := by
  induction d generalizing values o with
  | nil =>
      cases hrun
      rfl
  | cons s d ih =>
      cases s with
      | calculation number text formula result => exact ih (run_calculation.symm.trans hrun) hp
      | find number text formula inputs output =>
          obtain ⟨f, q, x, rest, -, hq, -, hrest, rfl⟩ := run_find_eq_ok_iff.mp hrun
          obtain ⟨hpo, hpd⟩ := not_or.mp (mt List.mem_cons.mpr hp)
          rw [ih hrest hpd, Std.TreeMap.getElem?_insert, if_neg]
          rw [Nat.compare_eq_eq, id_of_quantity? hq]
          exact Ne.symm hpo

/-! ## What a run settles -/

/-- A run settles all steps, provided that it finds nothing twice and nothing that is known: no input of a
step changes after the step has read it. -/
theorem settles_of_run (hcovered : ∀ s ∈ d, Covered source s) (hordered : d.isWellOrdered known = true)
    (hnodup : d.outputs.Nodup) (hunknown : ∀ q ∈ d.outputs, q ∉ known)
    (hrun : run source chain values d = .ok o) : ∀ s ∈ d, Settles source chain o.values s := by
  induction d generalizing values o known with
  | nil => exact fun s hs ↦ absurd hs List.not_mem_nil
  | cons s d ih =>
      obtain ⟨hs, hd⟩ := List.forall_mem_cons.mp hcovered
      cases s with
      | calculation number text formula result =>
          exact List.forall_mem_cons.mpr
            ⟨trivial, ih hd hordered hnodup hunknown (run_calculation.symm.trans hrun)⟩
      | find number text formula inputs output =>
          have hkeep := fun p (hp : p ∉ Derivation.outputs (.find number text formula inputs output :: d)) ↦
            getElem?_of_run hrun hp
          obtain ⟨f, q, x, rest, hf, hq, hx, hrest, rfl⟩ := run_find_eq_ok_iff.mp hrun
          obtain rfl := id_of_quantity? hq
          obtain ⟨hinputs, hordered⟩ := Bool.and_eq_true_iff.mp hordered
          obtain ⟨hfresh, hnodup⟩ := List.nodup_cons.mp hnodup
          have hunknownd : ∀ p ∈ Derivation.outputs d, p ∉ q.id :: known := by
            intro p hp hmem
            rcases List.mem_cons.mp hmem with rfl | hmem
            · exact hfresh hp
            · exact hunknown p (List.mem_cons_of_mem _ hp) hmem
          have hlater : ∀ s ∈ d, Settles source chain rest.values s := ih hd hordered hnodup hunknownd hrest
          refine List.forall_mem_cons.mpr ⟨⟨f, q, x, hf, hq, ?_, ?_⟩, hlater⟩
          · rw [← hx]
            refine Solver.targetValue_congr fun p hp hne ↦ hkeep p.id fun hout ↦ ?_
            have hin : p.id ∈ known :=
              List.contains_iff_mem.mp (List.all_eq_true.mp hinputs _ (hs f hf p hp hne))
            exact hunknown _ hout hin
          · rw [getElem?_of_run hrest hfresh]
            exact Std.TreeMap.getElem?_insert_self

/-- Where a table settles all steps of a well ordered derivation, the derivation can be carried out from the
values that the table has for the knowns, and finds the values that the table has for its outputs. -/
theorem exists_run_of_settles (hcovered : ∀ s ∈ d, Covered source s)
    (hordered : d.isWellOrdered known = true) (hsettles : ∀ s ∈ d, Settles source chain settled s)
    (hknown : ∀ p ∈ known, values[p]? = settled[p]?) :
    ∃ o, run source chain values d = .ok o ∧ ∀ p, p ∈ known ∨ p ∈ d.outputs → o.values[p]? = settled[p]? := by
  induction d generalizing values known with
  | nil =>
      refine ⟨_, rfl, fun p hp ↦ hknown p ?_⟩
      simpa using hp
  | cons s d ih =>
      obtain ⟨hs, hd⟩ := List.forall_mem_cons.mp hcovered
      obtain ⟨hsettled, hsettlesd⟩ := List.forall_mem_cons.mp hsettles
      cases s with
      | calculation number text formula result => exact ih hd hordered hsettlesd hknown
      | find number text formula inputs output =>
          obtain ⟨f, q, x, hf, hq, hx, hvalue⟩ := hsettled
          obtain rfl := id_of_quantity? hq
          obtain ⟨hinputs, hordered⟩ := Bool.and_eq_true_iff.mp hordered
          have hagree : Solver.Agree f q.id values settled := fun p hp hne ↦ hknown p.id
            (List.contains_iff_mem.mp (List.all_eq_true.mp hinputs _ (hs f hf p hp hne)))
          have hnext : ∀ p ∈ q.id :: known, (values.insert q.id x)[p]? = settled[p]? := by
            intro p hp
            by_cases hpq : q.id = p
            · subst hpq
              rw [Std.TreeMap.getElem?_insert_self, hvalue]
            · rw [Std.TreeMap.getElem?_insert, if_neg (by rwa [Nat.compare_eq_eq])]
              exact hknown p ((List.mem_cons.mp hp).resolve_left (Ne.symm hpq))
          obtain ⟨rest, hrest, hfinds⟩ := ih hd hordered hsettlesd hnext
          refine ⟨_, run_find_eq_ok_iff.mpr
            ⟨f, q, x, rest, hf, hq, (Solver.targetValue_congr hagree).trans hx, hrest, rfl⟩, fun p hp ↦ ?_⟩
          refine hfinds p ?_
          simp only [Derivation.outputs, List.filterMap_cons, Step.output?, List.mem_cons] at hp ⊢
          tauto

/-! ## Other orders -/

/-- What one order computes, every other one computes too. -/
theorem exists_run_of_perm (hperm : d'.Perm d) (hcovered : ∀ s ∈ d, Covered source s)
    (hordered : d.isWellOrdered known = true) (hordered' : d'.isWellOrdered known = true)
    (hnodup : d.outputs.Nodup) (hunknown : ∀ q ∈ d.outputs, q ∉ known)
    (hrun : run source chain values d = .ok o) :
    ∃ o', run source chain values d' = .ok o' ∧ ∀ q : QuantityId, o'.values[q]? = o.values[q]? := by
  have houtputs : ∀ q, q ∈ d'.outputs ↔ q ∈ d.outputs := fun q ↦ (hperm.filterMap _).mem_iff
  have hsettles := settles_of_run hcovered hordered hnodup hunknown hrun
  have hknown : ∀ q ∈ known, values[q]? = o.values[q]? := fun q hq ↦
    (getElem?_of_run hrun fun hout ↦ hunknown q hout hq).symm
  obtain ⟨o', hrun', hfinds⟩ := exists_run_of_settles (fun s hs ↦ hcovered s (hperm.mem_iff.mp hs)) hordered'
    (fun s hs ↦ hsettles s (hperm.mem_iff.mp hs)) hknown
  refine ⟨o', hrun', fun q ↦ ?_⟩
  by_cases hq : q ∈ d'.outputs
  · exact hfinds q (.inr hq)
  · rw [getElem?_of_run hrun' hq, getElem?_of_run hrun (mt (houtputs q).mpr hq)]

/-- Two orders of carrying out steps from the same values end alike: both with the same values, or both with an
error. -/
def EndAlike (source : Source) (chain : List (Strategy Float)) (values : ValueTable Float)
    (d d' : Derivation) : Prop :=
  (∃ o o', run source chain values d = .ok o ∧ run source chain values d' = .ok o' ∧
      ∀ q : QuantityId, o'.values[q]? = o.values[q]?) ∨
    ∃ e e', run source chain values d = .error e ∧ run source chain values d' = .error e'

theorem endAlike_of_perm (hperm : d'.Perm d) (hcovered : ∀ s ∈ d, Covered source s)
    (hordered : d.isWellOrdered known = true) (hordered' : d'.isWellOrdered known = true)
    (hnodup : d.outputs.Nodup) (hunknown : ∀ q ∈ d.outputs, q ∉ known) :
    EndAlike source chain values d d' := by
  cases hrun : run source chain values d with
  | ok o =>
      obtain ⟨o', hrun', hsame⟩ :=
        exists_run_of_perm hperm hcovered hordered hordered' hnodup hunknown hrun
      exact .inl ⟨o, o', hrun, hrun', hsame⟩
  | error e =>
      cases hrun' : run source chain values d' with
      | error e' => exact .inr ⟨e, e', hrun, hrun'⟩
      | ok o' =>
          -- the first order is one of the steps of the second, so it would have succeeded
          have houtputs := hperm.filterMap Step.output?
          obtain ⟨o, hrun'', -⟩ := exists_run_of_perm hperm.symm
            (fun s hs ↦ hcovered s (hperm.mem_iff.mp hs)) hordered' hordered (houtputs.nodup_iff.mpr hnodup)
            (fun q hq ↦ hunknown q (houtputs.mem_iff.mp hq)) hrun'
          cases hrun.symm.trans hrun''

end Calculation

namespace Catalogue

/-- A step that applies a formula of the catalogue to all its other quantities reads nothing else. -/
theorem Coherent.covered {c : Catalogue} (hc : c.Coherent) {s : Step} (hs : s.Applies c.allFormulas) :
    Calculation.Covered c.source s := by
  obtain ⟨g, hg, i, -, number, text, rfl⟩ := hs
  intro f hf p hp hne
  have hof := load_eq_ok_iff.mp hf
  obtain rfl : g = f.formula := Option.some.inj ((hc.mem_allFormulas.mp hg).symm.trans hof.formula)
  refine Formula.mem_others.mpr ⟨?_, hne⟩
  rw [← hc.quantity_ids hof]
  exact List.mem_map_of_mem hp

/-- Distance, time, velocity, density, volume, mass and momentum, with three laws among them. -/
def motion : Catalogue := after [
  .addQuantity "distance" "s" "m", .addQuantity "time" "t" "s", .addQuantity "velocity" "v" "m/s",
  .addQuantity "density" "D" "kg/m^3", .addQuantity "volume" "V" "m^3", .addQuantity "mass" "m" "kg",
  .addQuantity "momentum" "p" "N*s", .addFormula "uniform motion" "v = s / t" [3, 1, 2] [],
  .addFormula "density" "D = m / V" [4, 6, 5] [], .addFormula "momentum" "p = m * v" [7, 6, 3] []]

theorem grown_motion : motion.Grown := grown_iff_exists_after.mpr ⟨_, rfl⟩

end Catalogue

namespace Search

open Calculation (EndAlike)

/-- **The order does not matter.**  Whatever derivation the search finds in a catalogue, whatever values there
are to begin with and whatever strategies solve its formulas: carrying its steps out in any other order that is
well ordered for the knowns ends with the same values, or fails as the order found does. -/
theorem endAlike_of_find {c : Catalogue} {settings : SearchSettings} {table : DistanceTable}
    {known : List QuantityId} {target : QuantityId} {d d' : Derivation} {cost n : Nat} (hc : c.Grown)
    (hfind : find c.source settings table known target = .ok (.found d cost n)) (hperm : d'.Perm d)
    (hordered : d'.isWellOrdered known = true) (chain : List (Strategy Float)) (values : ValueTable Float) :
    EndAlike c.source chain values d d' := by
  by_cases ht : target ∈ known
  · rw [find, if_pos ht] at hfind
    cases hfind
    obtain rfl := hperm.eq_nil
    exact .inl ⟨_, _, rfl, rfl, fun _ ↦ rfl⟩
  · have hd := derives_of_find hc.coherent.lists ht hfind
    exact Calculation.endAlike_of_perm hperm (fun s hs ↦ hc.coherent.covered (hd.applies s hs)) hd.wellOrdered
      hordered hd.nodup hd.unknown

/-- A momentum from a distance, a time, a density and a volume: the search finds the mass first, but the
velocity may as well come before it. -/
theorem endAlike_momentum :
    find Catalogue.motion.source {} .empty [1, 2, 4, 5] 7 =
      .ok (.found [.find 1 "Use formula 2 to find quantity 6" 2 [4, 5] 6,
        .find 2 "Use formula 1 to find quantity 3" 1 [1, 2] 3,
        .find 3 "Use formula 3 to find quantity 7" 3 [6, 3] 7] 2 6) ∧
    EndAlike Catalogue.motion.source (Solver.chain {})
      (((((∅ : ValueTable Float).insert 1 6).insert 2 3).insert 4 5).insert 5 2)
      [.find 1 "Use formula 2 to find quantity 6" 2 [4, 5] 6,
        .find 2 "Use formula 1 to find quantity 3" 1 [1, 2] 3,
        .find 3 "Use formula 3 to find quantity 7" 3 [6, 3] 7]
      [.find 2 "Use formula 1 to find quantity 3" 1 [1, 2] 3,
        .find 1 "Use formula 2 to find quantity 6" 2 [4, 5] 6,
        .find 3 "Use formula 3 to find quantity 7" 3 [6, 3] 7] := by
  have hfind : find Catalogue.motion.source {} .empty [1, 2, 4, 5] 7 =
      .ok (.found [.find 1 "Use formula 2 to find quantity 6" 2 [4, 5] 6,
        .find 2 "Use formula 1 to find quantity 3" 1 [1, 2] 3,
        .find 3 "Use formula 3 to find quantity 7" 3 [6, 3] 7] 2 6) :=
    find_eq_of_runFor (n := 12) (by decide) rfl rfl
  exact ⟨hfind, endAlike_of_find Catalogue.grown_motion hfind (.swap _ _ _) rfl _ _⟩

end Search

end FormulaNet

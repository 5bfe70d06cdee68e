import FormulaNet.Proofs.Search.Decision
import FormulaNet.Proofs.Search.Simulation

/-!
# Formulas of a single quantity

A formula gives a quantity its value as soon as all its other quantities have one, and a formula whose symbols
are constants but for a single quantity gives it one from nothing.  The search does not use such formulas.  It
looks at a formula where one of its quantities is expanded, and so only where that one has a value already;
its outcome is the same as if these formulas were not there at all.  What it finds is therefore right, but
where a target rests on a formula of a single quantity it finds no path.
-/

namespace FormulaNet

/-- What has a value: a known, and with all other quantities of a formula each quantity of it.  A formula of
a single quantity has no others. -/
inductive Resolvable (formulas : List Formula) (knowns : List QuantityId) : QuantityId → Prop
  | known {q : QuantityId} : q ∈ knowns → Resolvable formulas knowns q
  | formula {f : Formula} {q : QuantityId} : f ∈ formulas → q ∈ f.quantities →
      (∀ p ∈ f.others q, Resolvable formulas knowns p) → Resolvable formulas knowns q

/-- The formulas that relate a quantity to others. -/
def relating (formulas : List Formula) : List Formula := formulas.filter (2 ≤ ·.arity)

/-- The source without its formulas of a single quantity, when looked up under a quantity. -/
def Source.relating (source : Source) : Source :=
  { source with formulasReferencing := fun q ↦ (source.formulasReferencing q).map FormulaNet.relating }

section

variable {formulas formulas' : List Formula} {knowns knowns' : List QuantityId} {f : Formula} {p q : QuantityId}

theorem mem_relating : f ∈ relating formulas ↔ f ∈ formulas ∧ 2 ≤ f.arity := by simp [relating]

/-- A formula that does not relate its quantity to others has no other. -/
theorem Formula.quantities_eq_singleton (hq : q ∈ f.quantities) (harity : ¬ 2 ≤ f.arity) :
    f.quantities = [q] := by
  obtain ⟨p, hp⟩ : ∃ p, f.quantities = [p] :=
    List.length_eq_one_iff.mp (Nat.le_antisymm (Nat.lt_succ_iff.mp (Nat.not_le.mp harity))
      (List.length_pos_of_mem hq))
  rw [hp, List.mem_singleton] at hq
  rw [hp, hq]

/-- More formulas and more knowns give no fewer quantities a value. -/
theorem Resolvable.mono (hformulas : formulas ⊆ formulas') (hknowns : knowns ⊆ knowns')
    (h : Resolvable formulas knowns q) : Resolvable formulas' knowns' q := by
  induction h with
  | known hq => exact .known (hknowns hq)
  | formula hf hq _ ih => exact .formula (hformulas hf) hq ih

/-- The formulas of single quantities add nothing where these quantities have a value without them. -/
theorem resolvable_relating_iff
    (hsingle : ∀ f ∈ formulas, ∀ x, f.quantities = [x] → Resolvable (relating formulas) knowns x) :
    Resolvable (relating formulas) knowns q ↔ Resolvable formulas knowns q := by
  constructor
  · exact .mono (fun f hf ↦ (mem_relating.mp hf).1) (List.Subset.refl knowns)
  · intro h
    induction h with
    | known hq => exact .known hq
    | @formula f q hf hq _ ih =>
        by_cases harity : 2 ≤ f.arity
        · exact .formula (mem_relating.mpr ⟨hf, harity⟩) hq ih
        · exact hsingle f hf q (Formula.quantities_eq_singleton hq harity)

/-- What can be derived is what has a value without the formulas of single quantities. -/
theorem mem_derivable_iff : q ∈ derivable formulas knowns ↔ Resolvable (relating formulas) knowns q := by
  constructor
  · intro hq
    refine hq {q | Resolvable (relating formulas) knowns q} ⟨fun p hp ↦ .known hp, ?_⟩
    intro f hf harity p hp hin
    refine .formula (mem_relating.mpr ⟨hf, harity⟩) hp fun r hr ↦ ?_
    exact hin r (Formula.mem_others.mp hr).1 (Formula.mem_others.mp hr).2
  · intro hq
    have hclosed : Closed formulas knowns (derivable formulas knowns) := isLeast_derivable.1
    induction hq with
    | known hq => exact hclosed.known _ hq
    | @formula f q hf hq _ ih =>
        obtain ⟨hf, harity⟩ := mem_relating.mp hf
        exact hclosed.formula f hf harity q hq fun p hp hpq ↦ ih p (Formula.mem_others.mpr ⟨hp, hpq⟩)

end

/-- The weight of a mass, and gravity, which a constant gives: the formula of gravity holds no other
quantity. -/
def Catalogue.weighing : Catalogue :=
  let c := (empty.addQuantity "weight" "W" "N").2
  let c := (c.addQuantity "mass" "m" "kg").2
  let c := (c.addQuantity "gravity" "g" "m/s^2").2
  let c := (c.addConstant "standard gravity" "g0" 9.80665 "m/s^2").2
  let c := (c.addFormula "weight" "W = m * g" [1, 2, 3] []).2
  (c.addFormula "gravity" "g = g0" [3] [1]).2

theorem Catalogue.grown_weighing : weighing.Grown :=
  .addFormula _ _ _ _ (.addFormula _ _ _ _ (.addConstant _ _ _ _ (.addQuantity _ _ _ (.addQuantity _ _ _
    (.addQuantity _ _ _ .empty)))))

theorem Catalogue.allFormulas_weighing : weighing.allFormulas =
    [⟨1, "weight", "W = m * g", [1, 2, 3], []⟩, ⟨2, "gravity", "g = g0", [3], [1]⟩] := rfl

/-- With the mass alone a weight has a value, as gravity has one from nothing. -/
theorem resolvable_weight : Resolvable Catalogue.weighing.allFormulas [2] 1 := by
  have hgravity : Resolvable Catalogue.weighing.allFormulas [2] 3 := by
    refine .formula (f := ⟨2, "gravity", "g = g0", [3], [1]⟩) ?_ (by simp) ?_
    · simp [Catalogue.allFormulas_weighing]
    · simp [Formula.others]
  refine .formula (f := ⟨1, "weight", "W = m * g", [1, 2, 3], []⟩) ?_ (by simp) ?_
  · simp [Catalogue.allFormulas_weighing]
  · intro p hp
    obtain rfl | rfl : p = 2 ∨ p = 3 := by simpa [Formula.others] using hp
    · exact .known (by simp)
    · exact hgravity

namespace Search

variable {source : Source} {settings : SearchSettings} {h : Heuristic} {s : State}
variable {formulas fs : List Formula} {f : Formula} {rest : List Entry} {q target : QuantityId}

/-! ## The search without the formulas of single quantities -/

/-- A formula all of whose quantities have been expanded is not applied. -/
theorem offer?_eq_none (hexpanded : ∀ q ∈ f.quantities, q ∈ s.expanded) : offer? h s f = none := by
  have hfilter : f.quantities.filter (· ∉ s.expanded) = [] := by simpa using hexpanded
  rw [offer?, hfilter]

/-- Of the formulas that relate an expanded quantity, those of a single quantity might as well not be
offered. -/
theorem offerAll_relating (maxFrontier : Nat) (h : Heuristic) (hq : q ∈ s.expanded)
    (hfs : ∀ f ∈ fs, q ∈ f.quantities) :
    offerAll maxFrontier h s (relating fs) = offerAll maxFrontier h s fs := by
  induction fs generalizing s with
  | nil => rfl
  | cons f fs ih =>
      have hrest : ∀ f ∈ fs, q ∈ f.quantities := fun g hg ↦ hfs g (List.mem_cons_of_mem f hg)
      by_cases harity : 2 ≤ f.arity
      · have hcons : relating (f :: fs) = f :: relating fs := List.filter_cons_of_pos (by simpa using harity)
        rw [hcons, offerAll, offerAll]
        split
        · exact ih hq hrest
        · next s' hs' =>
          rw [ih (expanded_offer? hs' ▸ hq) hrest]
      · have hcons : relating (f :: fs) = relating fs := List.filter_cons_of_neg (by simpa using harity)
        have hsingle := Formula.quantities_eq_singleton (hfs f List.mem_cons_self) harity
        have hnone : offer? h s f = none := offer?_eq_none (by simpa [hsingle] using hq)
        rw [hcons, offerAll, hnone]
        exact ih hq hrest

theorem expansion_relating (hsource : source.Lists formulas) :
    expansion source.relating settings h s q rest = expansion source settings h s q rest := by
  obtain ⟨fs, hfs, hmem⟩ := hsource.referencing q
  have hq : q ∈ (s.expand q rest).expanded := List.mem_cons_self
  have hoffers := offerAll_relating settings.maxFrontier h hq fun f hf ↦ ((hmem f).mp hf).2
  simp only [expansion, Source.relating, hfs, Except.map, hoffers]

/-- The formulas of the target that relate no other quantity say nothing about what is near. -/
theorem heuristic_relating (hsource : source.Lists formulas) (table : DistanceTable) :
    heuristic source.relating table target = heuristic source table target := by
  obtain ⟨fs, hfs, hmem⟩ := hsource.referencing target
  have hnear : ∀ fs : List Formula, (∀ f ∈ fs, target ∈ f.quantities) →
      ((relating fs).flatMap (·.quantities)).filter (· ≠ target) =
        (fs.flatMap (·.quantities)).filter (· ≠ target) := by
    intro fs hfs
    induction fs with
    | nil => rfl
    | cons f fs ih =>
        have hrest := ih fun g hg ↦ hfs g (List.mem_cons_of_mem f hg)
        by_cases harity : 2 ≤ f.arity
        · simp_all [relating]
        · have hsingle := Formula.quantities_eq_singleton (hfs f List.mem_cons_self) harity
          simp_all [relating]
  simp only [heuristic, Source.relating, hfs, Except.map, bind, Except.bind,
    hnear fs fun f hf ↦ ((hmem f).mp hf).2]

/-- The search takes the same course without the formulas of single quantities. -/
theorem find_relating (hsource : source.Lists formulas) (settings : SearchSettings) (table : DistanceTable)
    (known : List QuantityId) (target : QuantityId) :
    find source.relating settings table known target = find source settings table known target := by
  have hsim (h : Heuristic) : Simulates (fun _ ↦ True) Eq (round source settings h)
      (round source.relating settings h) :=
    .of_expansion fun s q rest r _ hr ↦ (expansion_relating hsource).trans hr
  rw [find, find, heuristic_relating hsource]
  split
  · rfl
  · cases heuristic source table target with
    | error cause => rfl
    | ok h => exact (hsim h).run_eq rfl trivial

/-- **The search does without the formulas of single quantities.**  Its outcome is the same without them.  If it
does not use up its budget it finds a derivation just where the target has a value without them, and no path
elsewhere; so it finds whatever has a value at all, as long as the quantities of these formulas have theirs
without them. -/
theorem find_ignores_single {c : Catalogue} (hc : c.Grown) (settings : SearchSettings)
    (table : DistanceTable) (known : List QuantityId) (target : QuantityId) :
    find c.source.relating settings table known target = find c.source settings table known target ∧
    (¬ HitsBudget (find c.source settings table known target) →
      ((∃ d cost n, find c.source settings table known target = .ok (.found d cost n)) ↔
        Resolvable (relating c.allFormulas) known target) ∧
      ((∃ n, find c.source settings table known target = .ok (.noPath n)) ↔
        ¬ Resolvable (relating c.allFormulas) known target) ∧
      ((∀ f ∈ c.allFormulas, ∀ x, f.quantities = [x] → Resolvable (relating c.allFormulas) known x) →
        ((∃ d cost n, find c.source settings table known target = .ok (.found d cost n)) ↔
          Resolvable c.allFormulas known target))) := by
  have hsource := hc.coherent.lists
  refine ⟨find_relating hsource settings table known target, fun hbudget ↦ ?_⟩
  obtain ⟨hnone, hfound⟩ := decides_of_not_hitsBudget hsource hbudget
  rw [mem_derivable_iff] at hnone hfound
  exact ⟨hfound, hnone, fun hsingle ↦ hfound.trans (resolvable_relating_iff hsingle)⟩

/-- The search for the weight, with the usual budget and guided by the distances of its graph. -/
def findWeight (known : List QuantityId) : Except Error SearchOutcome :=
  find Catalogue.weighing.source {}
    (.build Catalogue.weighing.allQuantities Catalogue.weighing.allFormulas) known 1

/-- With mass and gravity the weight is found. -/
theorem ignores_single_weight :
    Catalogue.weighing.Grown ∧
      findWeight [2, 3] = .ok (.found [.find 1 "Use formula 1 to find quantity 1" 1 [2, 3] 1] 1 2) ∧
      (∀ f ∈ Catalogue.weighing.allFormulas, ∀ x, f.quantities = [x] →
        Resolvable (relating Catalogue.weighing.allFormulas) [2, 3] x) ∧
      ((∃ d cost n, findWeight [2, 3] = .ok (.found d cost n)) ↔
        Resolvable Catalogue.weighing.allFormulas [2, 3] 1) ∧
      Resolvable Catalogue.weighing.allFormulas [2, 3] 1 := by
  have hfind : findWeight [2, 3] =
      .ok (.found [.find 1 "Use formula 1 to find quantity 1" 1 [2, 3] 1] 1 2) :=
    find_eq_of_runFor (n := 9) (by decide) rfl rfl
  have hbudget : ¬ HitsBudget (findWeight [2, 3]) := by
    rw [hfind]
    exact not_hitsBudget_found
  have hsingle : ∀ f ∈ Catalogue.weighing.allFormulas, ∀ x, f.quantities = [x] →
      Resolvable (relating Catalogue.weighing.allFormulas) [2, 3] x := by
    intro f hf x hx
    rw [Catalogue.allFormulas_weighing] at hf
    obtain rfl | rfl : f = _ ∨ f = _ := by simpa using hf
    · cases hx
    · cases hx
      exact .known (by simp)
  exact ⟨Catalogue.grown_weighing, hfind, hsingle,
    ((find_ignores_single Catalogue.grown_weighing {} _ [2, 3] 1).2 hbudget).2.2 hsingle,
    resolvable_weight.mono (List.Subset.refl _) (by simp)⟩

/-- With the mass alone no path is found, although the weight has a value. -/
theorem noPath_weight :
    Catalogue.weighing.Grown ∧ (∃ f ∈ Catalogue.weighing.allFormulas, f.quantities = [3]) ∧
      Resolvable Catalogue.weighing.allFormulas [2] 1 ∧ ¬ HitsBudget (findWeight [2]) ∧
      findWeight [2] = .ok (.noPath 1) ∧ ¬ ∃ d cost n, findWeight [2] = .ok (.found d cost n) := by
  have hfind : findWeight [2] = .ok (.noPath 1) := find_eq_of_runFor (n := 9) (by decide) rfl rfl
  refine ⟨Catalogue.grown_weighing, ?_, resolvable_weight, ?_, hfind, ?_⟩
  · rw [Catalogue.allFormulas_weighing]
    exact ⟨_, .tail _ (.head _), rfl⟩
  · rw [hfind]
    exact not_hitsBudget_noPath
  · rw [hfind]
    rintro ⟨d, cost, n, hfound⟩
    cases hfound

end Search

end FormulaNet

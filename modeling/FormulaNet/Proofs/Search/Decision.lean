import FormulaNet.Proofs.Search.Budget
import FormulaNet.Proofs.Search.Optimal

/-!
# The search decides what can be derived

What can be derived is the least set of quantities that holds the knowns and is closed under the formulas.  A
search that has nothing left to expand has expanded a closed set without the target, so the target cannot be
derived; one that arrives at the target has a derivation for it.  There is no other way to end but by the
budget, and a large enough budget is never used up: every quantity is expanded at most once, and an expansion
offers the formulas of one quantity.  None of this depends on the estimate.
-/

namespace FormulaNet

/-- A set of quantities with all knowns and, with all quantities of a formula but one, that one too.  The
formula has to relate some other quantity. -/
structure Closed (formulas : List Formula) (knowns : List QuantityId) (S : Set QuantityId) : Prop where
  known : ∀ q ∈ knowns, q ∈ S
  formula : ∀ f ∈ formulas, 2 ≤ f.arity → ∀ q ∈ f.quantities, (∀ p ∈ f.quantities, p ≠ q → p ∈ S) → q ∈ S

/-- What can be derived from the knowns. -/
def derivable (formulas : List Formula) (knowns : List QuantityId) : Set QuantityId :=
  {q | ∀ S, Closed formulas knowns S → q ∈ S}

section

variable {formulas : List Formula} {knowns : List QuantityId} {f : Formula} {p q : QuantityId} {n : Nat}

/-- What can be derived is the least closed set. -/
theorem isLeast_derivable : IsLeast {S | Closed formulas knowns S} (derivable formulas knowns) := by
  refine ⟨⟨fun q hq S hS ↦ hS.known q hq, fun f hf harity q hq hin S hS ↦ ?_⟩, fun S hS q hq ↦ hq S hS⟩
  exact hS.formula f hf harity q hq fun p hp hpq ↦ hin p hp hpq S hS

theorem Formula.two_le_arity (hp : p ∈ f.others q) (hq : q ∈ f.quantities) : 2 ≤ f.arity := by
  obtain ⟨hpf, hpq⟩ := Formula.mem_others.mp hp
  have hpos : 0 < (f.others q).length := List.length_pos_of_mem hp
  have hlt : (f.others q).length < f.quantities.length :=
    List.length_filter_lt_length_iff_exists.mpr ⟨q, hq, by simp⟩
  exact Nat.lt_of_le_of_lt hpos hlt

theorem Formula.others_ne_nil (hf : f.quantities.Nodup) (h : 2 ≤ f.arity) (q : QuantityId) :
    f.others q ≠ [] := by
  intro hnil
  have hall : ∀ p ∈ f.quantities, p = q := by
    intro p hp
    by_contra hpq
    have hmem : p ∈ f.others q := Formula.mem_others.mpr ⟨hp, hpq⟩
    rw [hnil] at hmem
    cases hmem
  have hle := List.nodup_iff_count_le_one.mp hf q
  rw [List.count_eq_length.mpr fun p hp ↦ (hall p hp).symm] at hle
  exact absurd h (by unfold Formula.arity; omega)

/-- What can be derived at some depth can be derived. -/
theorem DerivedAt.mem_derivable (h : DerivedAt formulas knowns q n) : q ∈ derivable formulas knowns := by
  have hclosed : Closed formulas knowns (derivable formulas knowns) := isLeast_derivable.1
  induction h with
  | known hq => exact hclosed.known _ hq
  | @apply f q depth hf hq hne _ ih =>
      obtain ⟨p, hp⟩ := List.exists_mem_of_ne_nil _ hne
      refine hclosed.formula f hf (Formula.two_le_arity hp hq) q hq fun r hr hrq ↦ ?_
      exact ih r (Formula.mem_others.mpr ⟨hr, hrq⟩)

end

namespace Search

variable {source : Source} {settings : SearchSettings} {h : Heuristic} {s t : State}
variable {formulas pending : List Formula} {known : List QuantityId} {table : DistanceTable}
variable {target : QuantityId}

/-! ## Nothing is left -/

/-- Where nothing waits, what has been expanded is closed. -/
theorem closed_expanded (hformulas : ∀ f ∈ formulas, f.quantities.Nodup)
    (hfound : Founded formulas known s) (hs : Exhaustive formulas h [] s) (hf : s.frontier = []) :
    Closed formulas known {q | q ∈ s.expanded} where
  known q hq := hs.mem_expanded hf (Table.mem_of_eq_some (hfound.known_depth q hq))
  formula f hff harity q hq hin := by
    by_contra hqs
    have hready : Ready s f q := ready_of_expanded (hformulas f hff) hq hqs fun p hp ↦
      let ⟨hpf, hpq⟩ := Formula.mem_others.mp hp
      hin p hpf hpq
    obtain ⟨d, hd, -⟩ := hs.applied f hff List.not_mem_nil q hready
      (Formula.others_ne_nil (hformulas f hff) harity q)
    exact hqs (hs.mem_expanded hf (Table.mem_of_eq_some hd))

/-- The target is not expanded. -/
theorem target_notMem_expanded (hs : h.target ∉ s.expanded)
    (hreach : Relation.ReflTransGen (Round source settings h) s t) : h.target ∉ t.expanded := by
  induction hreach with
  | refl => exact hs
  | tail _ hstep ih =>
      cases hstep with
      | skip hf hstale => exact ih
      | expand hf hlive htarget hbudget hfs ho =>
          rw [expanded_offerAll ho]
          simp [State.expand, Ne.symm htarget, ih]

/-! ## The decision -/

/-- A target that is not known is searched for until the search ends in some state that the rounds reach. -/
theorem exists_ends_of_find (hsource : source.Lists formulas) (settings : SearchSettings)
    (table : DistanceTable) (ht : target ∉ known) :
    ∃ h s o, h.target = target ∧ Relation.ReflTransGen (Round source settings h) (start h known) s ∧
      Ends source settings h s o ∧ run source settings h (start h known) = .ok o ∧
      find source settings table known target = .ok o := by
  obtain ⟨fs, hfs, -⟩ := hsource.referencing target
  obtain ⟨h, hh, htarget⟩ : ∃ h, heuristic source table target = .ok h ∧ h.target = target :=
    ⟨_, heuristic_eq_ok_iff.mpr ⟨fs, hfs, rfl⟩, rfl⟩
  obtain ⟨s, o, hreach, hends, hrun⟩ := exists_ends hsource settings h (start h known)
  refine ⟨h, s, o, htarget, hreach, hends, hrun, ?_⟩
  rw [find, if_neg ht, hh]
  exact hrun

/-- A state in which the search ends within its budget tells whether the target can be derived. -/
theorem Ends.decides {o : SearchOutcome} (hsource : source.Lists formulas)
    (hreach : Relation.ReflTransGen (Round source settings h) (start h known) s)
    (hends : Ends source settings h s o) (hbudget : ¬ HitsBudget (.ok o)) :
    (∃ n, o = .noPath n) ∧ h.target ∉ derivable formulas known ∨
      (∃ d cost n, o = .found d cost n) ∧ h.target ∈ derivable formulas known := by
  have hfound : Founded formulas known s := founded_start.reached hsource hreach
  cases hends with
  | @found e rest harrived =>
      have hlive := harrived.live
      simp only [isStale, Bool.or_eq_false_iff, bne_eq_false_iff_eq] at hlive
      have hderived := (hfound.derivedAt hlive.2).mem_derivable
      exact .inr ⟨⟨_, _, _, rfl⟩, harrived.target ▸ hderived⟩
  | noPath hf =>
      have hclosed := closed_expanded hsource.nodup hfound (exhaustive_start.reached hsource hreach) hf
      exact .inl ⟨⟨_, rfl⟩, fun hderivable ↦
        target_notMem_expanded (by simp) hreach (hderivable _ hclosed)⟩
  | expansions => exact absurd ⟨_, _, rfl⟩ hbudget
  | frontier => exact absurd ⟨_, _, rfl⟩ hbudget

/-- A search that does not use up its budget tells whether the target can be derived. -/
theorem decides_of_not_hitsBudget (hsource : source.Lists formulas)
    (hbudget : ¬ HitsBudget (find source settings table known target)) :
    ((∃ n, find source settings table known target = .ok (.noPath n)) ↔
      target ∉ derivable formulas known) ∧
    ((∃ d cost n, find source settings table known target = .ok (.found d cost n)) ↔
      target ∈ derivable formulas known) := by
  by_cases ht : target ∈ known
  · have hderivable : target ∈ derivable formulas known := fun S hS ↦ hS.known target ht
    simp [find, ht, hderivable]
  · obtain ⟨h, s, o, rfl, hreach, hends, -, hfind⟩ := exists_ends_of_find hsource settings table ht
    rw [hfind] at hbudget ⊢
    rcases hends.decides hsource hreach hbudget with ⟨⟨n, rfl⟩, hnot⟩ | ⟨⟨d, cost, n, rfl⟩, hderivable⟩
    · simp [hnot]
    · simp [hderivable]

/-- **The search decides what can be derived.**  Whatever table of distances guides it: some budgets are large
enough for every search from these knowns, and a search that does not use up its budget finds no path just
where the target cannot be derived, and a derivation just where it can. -/
theorem find_decides {c : Catalogue} (hc : c.Grown) (known : List QuantityId) :
    (∃ expansions frontier, ∀ settings : SearchSettings, expansions ≤ settings.maxExpansions →
      frontier ≤ settings.maxFrontier → ∀ table target,
        ¬ HitsBudget (find c.source settings table known target)) ∧
    ∀ settings table target, ¬ HitsBudget (find c.source settings table known target) →
      ((∃ n, find c.source settings table known target = .ok (.noPath n)) ↔
        target ∉ derivable c.allFormulas known) ∧
      ((∃ d cost n, find c.source settings table known target = .ok (.found d cost n)) ↔
        target ∈ derivable c.allFormulas known) := by
  have hsource := hc.coherent.lists
  constructor
  · let domain := known ++ c.allFormulas.flatMap (·.quantities)
    have hdomain : ∀ f ∈ c.allFormulas, f.quantities ⊆ domain := fun f hf q hq ↦
      List.mem_append_right _ (List.mem_flatMap.mpr ⟨f, hf, hq⟩)
    refine ⟨domain.length, known.length + (domain.map (offers c.source)).sum,
      fun settings hexpansions hfrontier table target ↦ ?_⟩
    by_cases ht : target ∈ known
    · rw [find, if_pos ht]
      rintro ⟨n, k, hhit⟩
      cases hhit
    · obtain ⟨h, s, o, -, -, -, hrun, hfind⟩ := exists_ends_of_find hsource settings table ht
      rw [hfind, ← hrun]
      exact not_hitsBudget_run hsource hdomain (bounded_start (List.subset_append_left _ _)) hexpansions
        hfrontier
  · exact fun settings table target ↦ decides_of_not_hitsBudget hsource

/-- From mass, time and velocity the force can be derived; from the mass alone the search finds no path, and
so there is none. -/
theorem decides_force :
    Catalogue.mechanics.Grown ∧
      ¬ HitsBudget (find Catalogue.mechanics.source {} .empty [2] 1) ∧
      ¬ HitsBudget (find Catalogue.mechanics.source {} .empty [5, 2, 4] 1) ∧
      1 ∉ derivable Catalogue.mechanics.allFormulas [2] ∧
      1 ∈ derivable Catalogue.mechanics.allFormulas [5, 2, 4] := by
  have hnone : find Catalogue.mechanics.source {} .empty [2] 1 = .ok (.noPath 1) :=
    find_eq_of_runFor (n := 9) (by decide) rfl rfl
  have hsome : find Catalogue.mechanics.source {} .empty [5, 2, 4] 1 =
      .ok (.found [.find 1 "Use formula 2 to find quantity 3" 2 [5, 4] 3,
        .find 2 "Use formula 1 to find quantity 1" 1 [2, 3] 1] 2 4) :=
    find_eq_of_runFor (n := 9) (by decide) rfl rfl
  have hnone' : ¬ HitsBudget (find Catalogue.mechanics.source {} .empty [2] 1) := by
    rw [hnone]
    rintro ⟨n, k, hhit⟩
    cases hhit
  have hsome' : ¬ HitsBudget (find Catalogue.mechanics.source {} .empty [5, 2, 4] 1) := by
    rw [hsome]
    rintro ⟨n, k, hhit⟩
    cases hhit
  exact ⟨Catalogue.grown_mechanics, hnone', hsome',
    ((find_decides Catalogue.grown_mechanics [2]).2 _ _ _ hnone').1.mp ⟨1, hnone⟩,
    ((find_decides Catalogue.grown_mechanics [5, 2, 4]).2 _ _ _ hsome').2.mp ⟨_, _, _, hsome⟩⟩

end Search

end FormulaNet

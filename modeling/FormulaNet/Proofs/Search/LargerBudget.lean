import FormulaNet.Proofs.Search.Budget
import FormulaNet.Proofs.Search.Simulation

/-!
# Larger budgets

A budget only cuts a search short.  With a larger one the search takes the same course round for round until
the smaller one is used up; a search that ends before, with a derivation, without a path or with an error of
the source, ends just so with every larger budget.  Whatever the budget, no quantity is expanded twice, and no
more quantities are expanded than may be.  All this holds of every source, whatever it answers, and of every
table of distances.
-/

namespace FormulaNet.Search

variable {source : Source} {settings settings' : SearchSettings} {h : Heuristic} {s t : State}
variable {q : QuantityId} {rest : List Entry}

/-! ## The course with a larger budget -/

/-- Formulas that can all be offered can be offered where the frontier may grow larger. -/
theorem offerAll_mono {m m' : Nat} {fs : List Formula} (hm : m ≤ m') (ho : offerAll m h s fs = .ok t) :
    offerAll m' h s fs = .ok t := by
  induction fs generalizing s with
  | nil => exact ho
  | cons f fs ih =>
      unfold offerAll at ho ⊢
      split at ho
      · exact ih ho
      · split at ho
        · cases ho
        · next hsize =>
          rw [if_neg (by omega)]
          exact ih ho

/-- An expansion within the budget does the same within a larger one. -/
theorem expansion_mono {r : Except Error SearchOutcome ⊕ State}
    (hexpansions : settings.maxExpansions ≤ settings'.maxExpansions)
    (hfrontier : settings.maxFrontier ≤ settings'.maxFrontier)
    (hr : ∀ n k, r ≠ .inl (.ok (.budgetExceeded n k)))
    (hexpansion : expansion source settings h s q rest = r) : expansion source settings' h s q rest = r := by
  unfold expansion at hexpansion ⊢
  split at hexpansion
  · exact absurd hexpansion.symm (hr _ _)
  · next hbudget =>
    rw [if_neg (by omega)]
    cases hfs : source.formulasReferencing q with
    | error cause =>
        rw [hfs] at hexpansion
        exact hexpansion
    | ok fs =>
        rw [hfs] at hexpansion
        dsimp only at hexpansion ⊢
        split at hexpansion
        · exact absurd hexpansion.symm (hr _ _)
        · next ho =>
          rw [offerAll_mono hfrontier ho]
          exact hexpansion

theorem simulates_of_le (hexpansions : settings.maxExpansions ≤ settings'.maxExpansions)
    (hfrontier : settings.maxFrontier ≤ settings'.maxFrontier) :
    Simulates (¬ HitsBudget ·) Eq (round source settings h) (round source settings' h) := by
  refine .of_expansion fun s q rest r hkind ↦ expansion_mono hexpansions hfrontier ?_
  rintro n k rfl
  exact hkind _ rfl ⟨n, k, rfl⟩

/-! ## The quantities that are expanded -/

/-- The next round expands the quantity: its entry is in front and live, it is not the target, and the budget
has room for it. -/
structure Expands (settings : SearchSettings) (h : Heuristic) (s : State) (q : QuantityId) : Prop where
  front : ∃ e rest, s.frontier = e :: rest ∧ e.quantity = q ∧ isStale s e = false
  target : q ≠ h.target
  budget : s.expanded.length < settings.maxExpansions

theorem Expands.notMem_expanded (hs : Expands settings h s q) : q ∉ s.expanded := by
  obtain ⟨e, rest, -, rfl, hlive⟩ := hs.front
  simp only [isStale, Bool.or_eq_false_iff, decide_eq_false_iff_not] at hlive
  exact hlive.1

/-- What has been expanded stays expanded. -/
theorem Round.expanded_subset (hstep : Round source settings h s t) : s.expanded ⊆ t.expanded := by
  cases hstep with
  | skip => exact List.Subset.refl _
  | expand hf hlive htarget hbudget hfs ho =>
      rw [expanded_offerAll ho]
      exact List.subset_cons_self _ _

/-- The round that expands a quantity enters it among the expanded ones. -/
theorem Expands.mem_expanded (hs : Expands settings h s q) (hstep : Round source settings h s t) :
    q ∈ t.expanded := by
  obtain ⟨e, rest, hfront, rfl, hlive⟩ := hs.front
  cases hstep with
  | skip hf hstale =>
      rw [hfront] at hf
      cases hf
      rw [hlive] at hstale
      cases hstale
  | expand hf _ htarget hbudget hfs ho =>
      rw [hfront] at hf
      cases hf
      rw [expanded_offerAll ho]
      exact List.mem_cons_self

/-- What is expanded is not expanded again, however long the search goes on. -/
theorem Expands.not_again (hs : Expands settings h s q)
    (hreach : Relation.TransGen (Round source settings h) s t) : ¬ Expands settings h t q := by
  have hmem : q ∈ t.expanded := by
    induction hreach with
    | single hstep => exact hs.mem_expanded hstep
    | tail _ hstep ih => exact hstep.expanded_subset ih
  exact fun ht ↦ ht.notMem_expanded hmem

/-! ## The number of expansions -/

/-- No round expands more quantities than may be. -/
theorem Round.length_expanded_le (hstep : Round source settings h s t)
    (hs : s.expanded.length ≤ settings.maxExpansions) : t.expanded.length ≤ settings.maxExpansions := by
  cases hstep with
  | skip => exact hs
  | expand hf hlive htarget hbudget hfs ho =>
      rw [expanded_offerAll ho]
      exact hbudget

/-- The outcome of the last round reports no more expansions than may be. -/
theorem expansions_le_of_round {o : SearchOutcome} (hs : s.expanded.length ≤ settings.maxExpansions)
    (hround : round source settings h s = .inl (.ok o)) : o.expansions ≤ settings.maxExpansions := by
  cases front h s with
  | nothing hf =>
      rw [round_of_nothing hf] at hround
      cases hround
      exact hs
  | stale hf hstale =>
      rw [round_of_stale hf hstale] at hround
      cases hround
  | arrived harrived =>
      rw [round_of_arrived harrived] at hround
      cases hround
      exact hs
  | other hf hlive htarget =>
      rw [round_of_other hf hlive htarget, expansion] at hround
      split at hround
      · cases hround
        exact hs
      · next hbudget =>
        split at hround
        · cases hround
        · split at hround
          · cases hround
            exact Nat.lt_of_not_le hbudget
          · cases hround

theorem expansions_le_of_run {o : SearchOutcome} (hs : s.expanded.length ≤ settings.maxExpansions)
    (hrun : run source settings h s = .ok o) : o.expansions ≤ settings.maxExpansions := by
  obtain ⟨t, hreach, hround⟩ := exists_round_eq_run source settings h s
  rw [hrun] at hround
  have ht : t.expanded.length ≤ settings.maxExpansions := by
    clear hround
    induction hreach with
    | refl => exact hs
    | tail _ hstep ih => exact hstep.length_expanded_le ih
  exact expansions_le_of_round ht hround

/-- **A budget only cuts a search short.**  A search that does not use up its budget has the same outcome with
every larger one; no quantity is expanded twice; and no outcome reports more expansions than may be. -/
theorem find_within_budget (source : Source) (settings : SearchSettings) (table : DistanceTable)
    (known : List QuantityId) (target : QuantityId) :
    (¬ HitsBudget (find source settings table known target) → ∀ larger : SearchSettings,
      settings.maxExpansions ≤ larger.maxExpansions → settings.maxFrontier ≤ larger.maxFrontier →
        find source larger table known target = find source settings table known target) ∧
    (∀ h s t q, heuristic source table target = .ok h →
      Relation.ReflTransGen (Round source settings h) (start h known) s → Expands settings h s q →
      Relation.TransGen (Round source settings h) s t → ¬ Expands settings h t q) ∧
    ∀ o, find source settings table known target = .ok o → o.expansions ≤ settings.maxExpansions := by
  refine ⟨?_, fun h s t q _ _ hs hreach ↦ hs.not_again hreach, ?_⟩
  · intro hbudget larger hexpansions hfrontier
    by_cases ht : target ∈ known
    · rw [find, find, if_pos ht, if_pos ht]
    · rw [find, if_neg ht] at hbudget
      rw [find, find, if_neg ht, if_neg ht]
      cases hh : heuristic source table target with
      | error cause => rfl
      | ok h =>
          rw [hh] at hbudget
          exact (simulates_of_le hexpansions hfrontier).run_eq rfl hbudget
  · intro o hfind
    by_cases ht : target ∈ known
    · rw [find, if_pos ht] at hfind
      cases hfind
      exact Nat.zero_le _
    · rw [find, if_neg ht] at hfind
      obtain ⟨h, -, hrun⟩ := bind_eq_ok_iff.mp hfind
      exact expansions_le_of_run (by simp) hrun

/-- A budget of four expansions is enough for the force, and so is the usual one; the mass is expanded once.
With three expansions the search does not get there. -/
theorem within_budget_force :
    find Catalogue.mechanics.source ⟨4, 1⟩ .empty [5, 2, 4] 1 =
        .ok (.found [.find 1 "Use formula 2 to find quantity 3" 2 [5, 4] 3,
          .find 2 "Use formula 1 to find quantity 1" 1 [2, 3] 1] 2 4) ∧
      find Catalogue.mechanics.source {} .empty [5, 2, 4] 1 =
        find Catalogue.mechanics.source ⟨4, 1⟩ .empty [5, 2, 4] 1 ∧
      (∃ h, heuristic Catalogue.mechanics.source .empty 1 = .ok h ∧
        ∃ t, Relation.TransGen (Round Catalogue.mechanics.source ⟨4, 1⟩ h) (start h [5, 2, 4]) t ∧
          Expands ⟨4, 1⟩ h (start h [5, 2, 4]) 2 ∧ ¬ Expands ⟨4, 1⟩ h t 2) ∧
      find Catalogue.mechanics.source ⟨3, 1⟩ .empty [5, 2, 4] 1 = .ok (.budgetExceeded 3 0) ∧
      (SearchOutcome.budgetExceeded 3 0).expansions ≤ 3 := by
  have hfind : find Catalogue.mechanics.source ⟨4, 1⟩ .empty [5, 2, 4] 1 =
      .ok (.found [.find 1 "Use formula 2 to find quantity 3" 2 [5, 4] 3,
        .find 2 "Use formula 1 to find quantity 1" 1 [2, 3] 1] 2 4) :=
    find_eq_of_runFor (n := 9) (by decide) rfl rfl
  have hbudget : ¬ HitsBudget (find Catalogue.mechanics.source ⟨4, 1⟩ .empty [5, 2, 4] 1) := by
    rw [hfind]
    exact not_hitsBudget_found
  have hshort : find Catalogue.mechanics.source ⟨3, 1⟩ .empty [5, 2, 4] 1 = .ok (.budgetExceeded 3 0) :=
    find_eq_of_runFor (n := 9) (by decide) rfl rfl
  obtain ⟨hlarger, honce, -⟩ := find_within_budget Catalogue.mechanics.source ⟨4, 1⟩ .empty [5, 2, 4] 1
  have hexpands : Expands ⟨4, 1⟩ ⟨.empty, 1, [2, 3]⟩ (start ⟨.empty, 1, [2, 3]⟩ [5, 2, 4]) 2 :=
    ⟨⟨⟨2, 0, .hops 1, 1⟩, _, rfl, rfl, rfl⟩, by decide, by decide⟩
  have hround : Relation.TransGen (Round Catalogue.mechanics.source ⟨4, 1⟩ ⟨.empty, 1, [2, 3]⟩)
      (start ⟨.empty, 1, [2, 3]⟩ [5, 2, 4]) _ :=
    .single (.expand (e := ⟨2, 0, .hops 1, 1⟩) rfl rfl (by decide) (by decide) rfl rfl)
  exact ⟨hfind, hlarger hbudget {} (by decide) (by decide),
    ⟨_, rfl, _, hround, hexpands, honce _ _ _ _ rfl .refl hexpands hround⟩, hshort,
    (find_within_budget Catalogue.mechanics.source ⟨3, 1⟩ .empty [5, 2, 4] 1).2.2 _ hshort⟩

end FormulaNet.Search

import FormulaNet.Proofs.Search.Exhaustive
import Mathlib.Algebra.Order.BigOperators.Group.List
import Mathlib.Algebra.Order.Group.Nat
import Mathlib.Algebra.Ring.Nat

/-!
# What the search takes from its budget

A search expands each quantity once at most, and only knowns and quantities of formulas.  An expansion adds no
more entries to the frontier than it has formulas to offer.  `Bounded` states this of a state; so a budget
with room for all quantities and all offers is never used up (`not_hitsBudget_run`), and without a budget the
search would end as well.
-/

namespace FormulaNet.Search

variable {source : Source} {settings : SearchSettings} {h : Heuristic} {s t : State}
variable {formulas pending : List Formula} {known domain : List QuantityId} {initial : Nat}

/-- The search has used up its budget. -/
def HitsBudget (r : Except Error SearchOutcome) : Prop := ∃ n k, r = .ok (.budgetExceeded n k)

@[simp] theorem not_hitsBudget_found {d : Derivation} {cost n : Nat} :
    ¬ HitsBudget (.ok (.found d cost n)) := by
  rintro ⟨n', k, hhit⟩
  cases hhit

@[simp] theorem not_hitsBudget_noPath {n : Nat} : ¬ HitsBudget (.ok (.noPath n)) := by
  rintro ⟨n', k, hhit⟩
  cases hhit

/-- How many formulas the expansion of a quantity offers. -/
def offers (source : Source) (q : QuantityId) : Nat :=
  match source.formulasReferencing q with
  | .ok fs => fs.length
  | .error _ => 0

theorem length_push (e : Entry) (frontier : List Entry) : (push e frontier).length = frontier.length + 1 := by
  induction frontier with
  | nil => rfl
  | cons a rest ih =>
      unfold push
      split
      · rfl
      · rw [List.length_cons, ih, List.length_cons]

/-- Each formula that is offered adds one entry at most. -/
theorem lt_of_offerAll_eq_error {maxFrontier size : Nat} {fs : List Formula}
    (ho : offerAll maxFrontier h s fs = .error size) : maxFrontier < s.frontier.length + fs.length := by
  induction fs generalizing s with
  | nil => cases ho
  | cons f fs ih =>
      unfold offerAll at ho
      rw [List.length_cons]
      split at ho
      · exact Nat.lt_succ_of_lt (ih ho)
      · next s' hs' =>
        obtain ⟨q, -, -, rfl⟩ := offer?_eq_some_iff.mp hs'
        have hlength : (s.derive h f q).frontier.length = s.frontier.length + 1 := length_push ..
        split at ho
        · omega
        · have := ih ho
          omega

/-- Quantities of the domain are expanded, each once, and every expansion has added no more entries than it
has formulas to offer.  Those in `pending` are still to be offered. -/
structure Bounded (source : Source) (domain : List QuantityId) (initial : Nat) (pending : List Formula)
    (s : State) : Prop where
  nodup : s.expanded.Nodup
  expanded : s.expanded ⊆ domain
  waiting : ∀ e ∈ s.frontier, e.quantity ∈ domain
  within : ∀ f ∈ pending, f.quantities ⊆ domain
  length_le : s.frontier.length + pending.length ≤ initial + (s.expanded.map (offers source)).sum

namespace Bounded

variable {f : Formula} {q : QuantityId} {e : Entry} {rest : List Entry}

/-- Dropping a stale entry. -/
theorem skip (hs : Bounded source domain initial [] s) (hf : s.frontier = e :: rest) :
    Bounded source domain initial [] { s with frontier := rest } where
  nodup := hs.nodup
  expanded := hs.expanded
  waiting e' he' := hs.waiting e' (by rw [hf]; exact List.mem_cons_of_mem e he')
  within := hs.within
  length_le := by
    have hle := hs.length_le
    rw [hf, List.length_cons] at hle
    exact Nat.le_trans (Nat.add_le_add_right (Nat.le_succ _) _) hle

/-- Expanding the quantity in front. -/
theorem expand (hs : Bounded source domain initial [] s) (hf : s.frontier = e :: rest)
    (hlive : isStale s e = false) (hfs : source.formulasReferencing e.quantity = .ok pending)
    (hpending : ∀ f ∈ pending, f.quantities ⊆ domain) :
    Bounded source domain initial pending (s.expand e.quantity rest) where
  nodup := by
    simp only [isStale, Bool.or_eq_false_iff, decide_eq_false_iff_not] at hlive
    exact List.nodup_cons.mpr ⟨hlive.1, hs.nodup⟩
  expanded := List.cons_subset.mpr ⟨hs.waiting e (by rw [hf]; exact List.mem_cons_self), hs.expanded⟩
  waiting e' he' := hs.waiting e' (by rw [hf]; exact List.mem_cons_of_mem e he')
  within := hpending
  length_le := by
    have hle := hs.length_le
    rw [hf, List.length_cons, List.length_nil] at hle
    have hoffers : offers source e.quantity = pending.length := by simp [offers, hfs]
    simp only [State.expand, List.map_cons, List.sum_cons, hoffers]
    omega

/-- An accepted offer. -/
theorem derive (hs : Bounded source domain initial (f :: pending) s) (hr : Ready s f q) :
    Bounded source domain initial pending (s.derive h f q) where
  nodup := hs.nodup
  expanded := hs.expanded
  waiting e he := by
    rcases mem_push.mp he with rfl | he
    · exact hs.within f List.mem_cons_self hr.mem.1
    · exact hs.waiting e he
  within g hg := hs.within g (List.mem_cons_of_mem f hg)
  length_le := by
    have hle := hs.length_le
    rw [List.length_cons] at hle
    simp only [State.derive, State.wait, length_push]
    omega

/-- A refused offer. -/
theorem refuse (hs : Bounded source domain initial (f :: pending) s) :
    Bounded source domain initial pending s where
  nodup := hs.nodup
  expanded := hs.expanded
  waiting := hs.waiting
  within g hg := hs.within g (List.mem_cons_of_mem f hg)
  length_le := by
    have hle := hs.length_le
    rw [List.length_cons] at hle
    omega

/-- A round keeps the bounds. -/
theorem step (hsource : source.Lists formulas) (hdomain : ∀ f ∈ formulas, f.quantities ⊆ domain)
    (hs : Bounded source domain initial [] s) (hstep : Round source settings h s t) :
    Bounded source domain initial [] t := by
  cases hstep with
  | skip hf hstale => exact hs.skip hf
  | @expand _ e rest fs hf hlive htarget hbudget hfs ho =>
      obtain ⟨fs', hfs', hmem⟩ := hsource.referencing e.quantity
      obtain rfl : fs = fs' := Except.ok.inj (hfs.symm.trans hfs')
      exact offerAll_induction (P := fun pending t ↦ Bounded source domain initial pending t)
        (fun _ _ _ _ hr _ ht ↦ ht.derive hr) (fun _ _ _ _ ht ↦ ht.refuse)
        (hs.expand hf hlive hfs fun f hf ↦ hdomain f ((hmem f).mp hf).1) ho

theorem reached (hsource : source.Lists formulas) (hdomain : ∀ f ∈ formulas, f.quantities ⊆ domain)
    (hs : Bounded source domain initial [] s)
    (hreach : Relation.ReflTransGen (Round source settings h) s t) :
    Bounded source domain initial [] t := by
  induction hreach with
  | refl => exact hs
  | tail _ hstep ih => exact ih.step hsource hdomain hstep

/-- There are never more entries than the whole domain accounts for. -/
theorem length_le_of_domain (hs : Bounded source domain initial pending s) :
    s.frontier.length + pending.length ≤ initial + (domain.map (offers source)).sum := by
  obtain ⟨ids, hperm, hsub⟩ := List.subperm_of_subset hs.nodup hs.expanded
  have hsum : (ids.map (offers source)).sum ≤ (domain.map (offers source)).sum :=
    (hsub.map _).sum_le_sum fun _ _ ↦ Nat.zero_le _
  rw [(hperm.map _).sum_eq] at hsum
  exact Nat.le_trans hs.length_le (Nat.add_le_add_left hsum initial)

/-- A quantity that is still to be expanded leaves the expanded ones fewer than the domain. -/
theorem length_expanded_lt (hs : Bounded source domain initial pending s) (hf : s.frontier = e :: rest)
    (hlive : isStale s e = false) : s.expanded.length < domain.length := by
  simp only [isStale, Bool.or_eq_false_iff, decide_eq_false_iff_not] at hlive
  have hnodup : (e.quantity :: s.expanded).Nodup := List.nodup_cons.mpr ⟨hlive.1, hs.nodup⟩
  have hsub : e.quantity :: s.expanded ⊆ domain :=
    List.cons_subset.mpr ⟨hs.waiting e (by rw [hf]; exact List.mem_cons_self), hs.expanded⟩
  exact (List.subperm_of_subset hnodup hsub).length_le

end Bounded

/-- No known waits more than once. -/
theorem length_frontier_start : (start h known).frontier.length ≤ known.length := by
  have fold : ∀ (ids : List QuantityId) (s : State),
      (ids.foldl (addKnown h) s).frontier.length ≤ s.frontier.length + ids.length := by
    intro ids
    induction ids with
    | nil => exact fun _ ↦ Nat.le_refl _
    | cons id ids ih =>
        intro s
        have hadd : (addKnown h s id).frontier.length ≤ s.frontier.length + 1 := by
          unfold addKnown
          split
          · exact Nat.le_succ _
          · exact Nat.le_of_eq (length_push ..)
        have hrest := ih (addKnown h s id)
        rw [List.foldl_cons, List.length_cons]
        omega
  simpa [start, State.empty] using fold known .empty

theorem bounded_start (hknown : known ⊆ domain) :
    Bounded source domain known.length [] (start h known) where
  nodup := by simp
  expanded := by simp
  waiting e he := by
    obtain ⟨q, hq, k, rfl⟩ := exists_of_mem_frontier_start he
    exact hknown hq
  within f hf := absurd hf List.not_mem_nil
  length_le := by simpa using length_frontier_start

/-- **A large enough budget is not used up.**  There has to be room for every quantity among the expanded
ones, and in the frontier for the knowns and the offers of every quantity. -/
theorem not_hitsBudget_run (hsource : source.Lists formulas) (hdomain : ∀ f ∈ formulas, f.quantities ⊆ domain)
    (hs : Bounded source domain initial [] s) (hexpansions : domain.length ≤ settings.maxExpansions)
    (hfrontier : initial + (domain.map (offers source)).sum ≤ settings.maxFrontier) :
    ¬ HitsBudget (run source settings h s) := by
  obtain ⟨t, o, hreach, hends, hrun⟩ := exists_ends hsource settings h s
  have ht : Bounded source domain initial [] t := hs.reached hsource hdomain hreach
  rintro ⟨n, k, hhit⟩
  obtain rfl : o = .budgetExceeded n k := Except.ok.inj (hrun.symm.trans hhit)
  cases hends with
  | expansions hf hlive hbudget =>
      have := ht.length_expanded_lt hf hlive
      omega
  | @frontier e rest fs size hf hlive hfs ho =>
      obtain ⟨fs', hfs', hmem⟩ := hsource.referencing e.quantity
      obtain rfl : fs = fs' := Except.ok.inj (hfs.symm.trans hfs')
      have hexpanded := ht.expand hf hlive hfs fun f hf ↦ hdomain f ((hmem f).mp hf).1
      have := hexpanded.length_le_of_domain
      have := lt_of_offerAll_eq_error ho
      omega

end FormulaNet.Search

import FormulaNet.Derivation.Search
import FormulaNet.Proofs.Derivation
import FormulaNet.Proofs.Knowledge.Growth
import Mathlib.Logic.Relation
import Mathlib.Tactic.Common

/-!
# Runs of the search

The loop of the search as a transition relation.  `Round` is one round that does not end the search: a stale
entry is dropped, or a quantity is expanded and the formulas that relate it are offered one after the other.
`find_eq_found` says when a derivation is found: some state that the rounds reach has an entry of the
target in front, and the derivation is read off the origins of that state.  What holds of every such state is
therefore proved round by round.

Nothing here depends on the estimate.
-/

namespace FormulaNet

/-- A source whose formulas are those of a list: under a quantity it finds the ones that relate it. -/
structure Source.Lists (source : Source) (formulas : List Formula) : Prop where
  referencing : ∀ q, ∃ fs, source.formulasReferencing q = .ok fs ∧
    ∀ f, f ∈ fs ↔ f ∈ formulas ∧ q ∈ f.quantities
  nodup : ∀ f ∈ formulas, f.quantities.Nodup

/-- A catalogue lists the formulas it keeps. -/
theorem Catalogue.Coherent.lists {c : Catalogue} (h : c.Coherent) : c.source.Lists c.allFormulas where
  referencing q := ⟨c.formulasReferencing q, rfl, fun _ ↦ h.mem_formulasReferencing⟩
  nodup _ hf := (h.keeps_of_mem hf).quantities_nodup

namespace Search

variable {source : Source} {settings : SearchSettings} {h : Heuristic} {s s' : State}
variable {formulas : List Formula} {known : List QuantityId} {target : QuantityId}

/-! ## Offering a formula -/

/-- Only `q` is left to be expanded among the quantities of `f`. -/
def Ready (s : State) (f : Formula) (q : QuantityId) : Prop :=
  f.quantities.filter (· ∉ s.expanded) = [q]

theorem Ready.mem {f : Formula} {q : QuantityId} (hr : Ready s f q) :
    q ∈ f.quantities ∧ q ∉ s.expanded := by
  have hq : q ∈ f.quantities.filter (· ∉ s.expanded) := by
    rw [show f.quantities.filter (· ∉ s.expanded) = [q] from hr]
    exact List.mem_singleton_self q
  simpa using hq

/-- The inputs of a ready formula have been expanded. -/
theorem Ready.expanded {f : Formula} {q p : QuantityId} (hr : Ready s f q) (hp : p ∈ f.others q) :
    p ∈ s.expanded := by
  obtain ⟨hpf, hpq⟩ := Formula.mem_others.mp hp
  by_contra hps
  have hp' : p ∈ f.quantities.filter (· ∉ s.expanded) := by simp [hpf, hps]
  rw [show f.quantities.filter (· ∉ s.expanded) = [q] from hr] at hp'
  exact hpq (List.mem_singleton.mp hp')

theorem ready_of_expanded {f : Formula} {q : QuantityId} (hf : f.quantities.Nodup)
    (hq : q ∈ f.quantities) (hqs : q ∉ s.expanded) (h : ∀ p ∈ f.others q, p ∈ s.expanded) :
    Ready s f q := by
  have hnd : (f.quantities.filter (· ∉ s.expanded)).Nodup := hf.sublist List.filter_sublist
  have hmem : ∀ p, p ∈ f.quantities.filter (· ∉ s.expanded) ↔ p = q := by
    intro p
    simp only [List.mem_filter, decide_eq_true_eq]
    constructor
    · rintro ⟨hp, hps⟩
      by_contra hpq
      exact hps (h p (Formula.mem_others.mpr ⟨hp, hpq⟩))
    · rintro rfl
      exact ⟨hq, hqs⟩
  exact List.perm_singleton.mp ((List.perm_ext_iff_of_nodup hnd (List.pairwise_singleton _ q)).mpr
    fun p ↦ by rw [hmem, List.mem_singleton])

/-- What an accepted offer does to the state. -/
def State.derive (s : State) (h : Heuristic) (f : Formula) (q : QuantityId) : State :=
  { s.wait h q (outputDepth s (f.others q)) with origins := s.origins.insert q ⟨f.id, f.others q⟩ }

/-- A formula is applied if it is ready and gives its output a smaller depth. -/
theorem offer?_eq_some_iff {f : Formula} :
    offer? h s f = some s' ↔
      ∃ q, Ready s f q ∧ improves s q (outputDepth s (f.others q)) = true ∧ s' = s.derive h f q := by
  unfold offer? Ready
  split
  · next q hq =>
    simp only [hq, List.cons.injEq, and_true, State.derive, Formula.others]
    split
    · next hi =>
      simp only [Option.some.injEq]
      constructor
      · intro he
        exact ⟨q, rfl, hi, he.symm⟩
      · rintro ⟨_, rfl, -, he⟩
        exact he.symm
    · next hi =>
      simp only [reduceCtorEq, false_iff, not_exists, not_and]
      rintro _ rfl hi'
      exact absurd hi' hi
  · next hne =>
    simp only [reduceCtorEq, false_iff, not_exists, not_and]
    intro q hq
    exact absurd hq (hne q)

/-- A ready formula that is not applied gives its output no smaller depth. -/
theorem not_improves_of_offer?_eq_none {f : Formula} {q : QuantityId} (hn : offer? h s f = none)
    (hr : Ready s f q) : improves s q (outputDepth s (f.others q)) = false := by
  by_contra hi
  have happlied : offer? h s f = some (s.derive h f q) :=
    offer?_eq_some_iff.mpr ⟨q, hr, by simpa using hi, rfl⟩
  rw [hn] at happlied
  cases happlied

/-- The depths of expanded quantities are not changed any more. -/
theorem Ready.getElem?_depths {f : Formula} {q p : QuantityId} (hr : Ready s f q) (hp : p ∈ s.expanded) :
    (s.derive h f q).depths[p]? = s.depths[p]? := by
  have hqp : q ≠ p := fun he ↦ hr.mem.2 (he ▸ hp)
  simp [State.derive, State.wait, Std.TreeMap.getElem?_insert, hqp]

/-- Offering formulas in turn keeps what every single offer keeps, whether it is accepted or not.  The
property may depend on the formulas that have not been offered yet. -/
theorem offerAll_induction {maxFrontier : Nat} {fs : List Formula} {P : List Formula → State → Prop}
    (accept : ∀ s f fs q, Ready s f q → improves s q (outputDepth s (f.others q)) = true →
      P (f :: fs) s → P fs (s.derive h f q))
    (reject : ∀ s f fs, offer? h s f = none → P (f :: fs) s → P fs s)
    (hs : P fs s) (ho : offerAll maxFrontier h s fs = .ok s') : P [] s' := by
  induction fs generalizing s with
  | nil =>
      cases ho
      exact hs
  | cons f fs ih =>
      unfold offerAll at ho
      split at ho
      · next hn => exact ih (reject s f fs hn hs) ho
      · next t ht =>
        split at ho
        · cases ho
        · obtain ⟨q, hr, hi, rfl⟩ := offer?_eq_some_iff.mp ht
          exact ih (accept s f fs q hr hi hs) ho

/-! ## The start -/

/-- What holds where nothing is known, and is kept when a known is put in, holds at the start. -/
theorem start_induction {P : State → Prop} (empty : P .empty)
    (add : ∀ s q, q ∈ known → q ∉ s.depths → P s → P (s.wait h q 0)) : P (start h known) := by
  refine List.foldlRecOn known (addKnown h) empty fun s hs q hq ↦ ?_
  unfold addKnown
  split
  · exact hs
  · next hnew => exact add s q hq hnew hs

@[simp] theorem origins_start : (start h known).origins = ∅ :=
  start_induction (P := (·.origins = ∅)) rfl fun _ _ _ _ hs ↦ hs

@[simp] theorem expanded_start : (start h known).expanded = [] :=
  start_induction (P := (·.expanded = [])) rfl fun _ _ _ _ hs ↦ hs

/-- Putting in a known gives it depth zero, unless it has a depth already. -/
theorem getElem?_depths_addKnown (s : State) (p q : QuantityId) :
    (addKnown h s p).depths[q]? = s.depths[q]?.or (if q = p then some 0 else none) := by
  unfold addKnown
  by_cases hq : q = p
  · subst hq
    rw [if_pos rfl]
    split
    · next hold =>
      obtain ⟨d, hd⟩ := Table.exists_of_mem hold
      rw [hd, Option.some_or]
    · next hnew => simp [State.wait, Std.TreeMap.getElem?_eq_none hnew]
  · rw [if_neg hq, Option.or_none]
    split
    · rfl
    · simp [State.wait, Ne.symm hq, Std.TreeMap.getElem?_insert]

/-- The knowns have depth zero, in whatever order they are put in. -/
theorem depths_start (q : QuantityId) :
    (start h known).depths[q]? = if q ∈ known then some 0 else none := by
  have fold : ∀ (ids : List QuantityId) (s : State), (ids.foldl (addKnown h) s).depths[q]? =
      s.depths[q]?.or (if q ∈ ids then some 0 else none) := by
    intro ids
    induction ids with
    | nil => simp
    | cons id ids ih =>
        intro s
        rw [List.foldl_cons, ih, getElem?_depths_addKnown, Option.or_assoc]
        by_cases hq : q = id <;> simp [hq]
  rw [start, fold]
  simp [State.empty]

/-! ## Rounds -/

/-- The state in which the front quantity has just been expanded, and the formulas are still to be
offered. -/
def State.expand (s : State) (q : QuantityId) (rest : List Entry) : State :=
  { s with expanded := q :: s.expanded, frontier := rest }

/-- A round that does not end the search. -/
inductive Round (source : Source) (settings : SearchSettings) (h : Heuristic) : State → State → Prop
  | /-- A stale entry is dropped. -/
    skip {s : State} {e : Entry} {rest : List Entry} :
      s.frontier = e :: rest → isStale s e = true → Round source settings h s { s with frontier := rest }
  | /-- A quantity is expanded. -/
    expand {s s' : State} {e : Entry} {rest : List Entry} {fs : List Formula} :
      s.frontier = e :: rest → isStale s e = false → e.quantity ≠ h.target →
      s.expanded.length < settings.maxExpansions → source.formulasReferencing e.quantity = .ok fs →
      offerAll settings.maxFrontier h (s.expand e.quantity rest) fs = .ok s' →
      Round source settings h s s'

/-- A state whose front entry is a live one of the target: the search ends here. -/
structure Arrived (h : Heuristic) (s : State) (e : Entry) (rest : List Entry) : Prop where
  frontier : s.frontier = e :: rest
  live : isStale s e = false
  target : e.quantity = h.target

/-- One round: the outcome where it ends the search, and the next state elsewhere. -/
def round (source : Source) (settings : SearchSettings) (h : Heuristic) (s : State) :
    Except Error SearchOutcome ⊕ State :=
  match s.frontier with
  | [] => .inl (.ok (.noPath s.expanded.length))
  | e :: rest =>
    if isStale s e then .inr { s with frontier := rest }
    else if e.quantity = h.target then
      .inl (.ok (.found (reconstruct s.origins h.target) e.depth s.expanded.length))
    else if settings.maxExpansions ≤ s.expanded.length then
      .inl (.ok (.budgetExceeded s.expanded.length rest.length))
    else
      match source.formulasReferencing e.quantity with
      | .error cause => .inl (.error cause)
      | .ok fs =>
        match offerAll settings.maxFrontier h (s.expand e.quantity rest) fs with
        | .error size => .inl (.ok (.budgetExceeded (s.expanded.length + 1) size))
        | .ok t => .inr t

theorem run_eq_round : run source settings h s =
    match round source settings h s with
    | .inl outcome => outcome
    | .inr t => run source settings h t := by
  rw [run, round]
  split
  · next hf => simp only [hf]
  · next e rest hf =>
    simp only [hf]
    by_cases hstale : isStale s e = true
    · simp only [hstale, ↓reduceIte]
    · by_cases htarget : e.quantity = h.target
      · simp only [hstale, htarget, ↓reduceIte, Bool.false_eq_true]
      · by_cases hbudget : settings.maxExpansions ≤ s.expanded.length
        · simp only [hstale, htarget, hbudget, ↓reduceIte, ↓reduceDIte, Bool.false_eq_true]
        · simp only [hstale, htarget, hbudget, ↓reduceIte, ↓reduceDIte, Bool.false_eq_true, State.expand]
          cases source.formulasReferencing e.quantity with
          | error cause => rfl
          | ok fs =>
              dsimp only
              split <;> simp_all

/-- A run ends in some state that the rounds reach, with the outcome of that state. -/
theorem exists_round_eq_run (source : Source) (settings : SearchSettings) (h : Heuristic) (s : State) :
    ∃ s', Relation.ReflTransGen (Round source settings h) s s' ∧
      round source settings h s' = .inl (run source settings h s) := by
  fun_induction run source settings h s with
  | case1 s hf => exact ⟨s, .refl, by simp [round, hf]⟩
  | case2 s e rest hf hstale ih =>
      obtain ⟨s', hreach, hs'⟩ := ih
      exact ⟨s', .head (.skip hf hstale) hreach, hs'⟩
  | case3 s e rest hf hstale htarget => exact ⟨s, .refl, by simp [round, hf, hstale, htarget]⟩
  | case4 s e rest hf hstale htarget hbudget =>
      exact ⟨s, .refl, by simp [round, hf, hstale, htarget, hbudget]⟩
  | case5 s e rest hf hstale htarget hbudget cause hfs =>
      exact ⟨s, .refl, by simp [round, hf, hstale, htarget, hbudget, hfs]⟩
  | case6 s e rest hf hstale htarget hbudget fs hfs size ho =>
      refine ⟨s, .refl, ?_⟩
      simp [round, hf, hstale, htarget, hbudget, hfs, State.expand, ho]
  | case7 s e rest hf hstale htarget hbudget fs hfs s' ho ih =>
      obtain ⟨s'', hreach, hs''⟩ := ih
      exact ⟨s'', .head (.expand hf (by simpa using hstale) htarget (by omega) hfs ho) hreach, hs''⟩

/-! ## The end of a run -/

/-- How the search ends in a state: what waits in front is a live entry of the target, or nothing waits, or
the budget is used up by the front entry or the formulas of its quantity. -/
inductive Ends (source : Source) (settings : SearchSettings) (h : Heuristic) (s : State) :
    SearchOutcome → Prop
  | found {e : Entry} {rest : List Entry} :
      Arrived h s e rest → Ends source settings h s
        (.found (reconstruct s.origins h.target) e.depth s.expanded.length)
  | noPath : s.frontier = [] → Ends source settings h s (.noPath s.expanded.length)
  | expansions {e : Entry} {rest : List Entry} :
      s.frontier = e :: rest → isStale s e = false → settings.maxExpansions ≤ s.expanded.length →
      Ends source settings h s (.budgetExceeded s.expanded.length rest.length)
  | frontier {e : Entry} {rest : List Entry} {fs : List Formula} {size : Nat} :
      s.frontier = e :: rest → isStale s e = false → source.formulasReferencing e.quantity = .ok fs →
      offerAll settings.maxFrontier h (s.expand e.quantity rest) fs = .error size →
      Ends source settings h s (.budgetExceeded (s.expanded.length + 1) size)

/-- A round that gives an outcome ends the search in its state. -/
theorem ends_of_round {o : SearchOutcome} (hround : round source settings h s = .inl (.ok o)) :
    Ends source settings h s o := by
  unfold round at hround
  split at hround
  · next hf =>
    cases hround
    exact .noPath hf
  · next e rest hf =>
    split at hround
    · cases hround
    · next hlive =>
      rw [Bool.not_eq_true] at hlive
      split at hround
      · next htarget =>
        cases hround
        exact .found ⟨hf, hlive, htarget⟩
      · split at hround
        · next hbudget =>
          cases hround
          exact .expansions hf hlive hbudget
        · split at hround
          · cases hround
          · next fs hfs =>
            split at hround
            · next size ho =>
              cases hround
              exact .frontier hf hlive hfs ho
            · cases hround

/-- A round of a source that lists formulas does not fail. -/
theorem round_ne_error (hsource : source.Lists formulas) (cause : Error) :
    round source settings h s ≠ .inl (.error cause) := by
  intro hround
  unfold round at hround
  split at hround
  · cases hround
  · next e rest hf =>
    obtain ⟨fs, hfs, -⟩ := hsource.referencing e.quantity
    rw [hfs] at hround
    dsimp only at hround
    repeat' split at hround
    all_goals cases hround

/-- Every run over listed formulas ends in a state that the rounds reach. -/
theorem exists_ends (hsource : source.Lists formulas) (settings : SearchSettings) (h : Heuristic)
    (s : State) :
    ∃ s' o, Relation.ReflTransGen (Round source settings h) s s' ∧ Ends source settings h s' o ∧
      run source settings h s = .ok o := by
  obtain ⟨s', hreach, hround⟩ := exists_round_eq_run source settings h s
  cases hrun : run source settings h s with
  | error cause =>
      rw [hrun] at hround
      exact absurd hround (round_ne_error hsource cause)
  | ok o =>
      rw [hrun] at hround
      exact ⟨s', o, hreach, ends_of_round hround, rfl⟩

/-- A derivation is found where the rounds reach a state that has arrived at the target. -/
theorem run_eq_found {d : Derivation} {cost n : Nat}
    (hrun : run source settings h s = .ok (.found d cost n)) :
    ∃ s' e rest, Relation.ReflTransGen (Round source settings h) s s' ∧ Arrived h s' e rest ∧
      d = reconstruct s'.origins h.target ∧ cost = e.depth ∧ n = s'.expanded.length := by
  obtain ⟨s', hreach, hround⟩ := exists_round_eq_run source settings h s
  rw [hrun] at hround
  cases ends_of_round hround with
  | found harrived => exact ⟨s', _, _, hreach, harrived, rfl, rfl, rfl⟩

/-- What the estimate rests on: the formulas of the target have been read. -/
theorem heuristic_eq_ok_iff {table : DistanceTable} :
    heuristic source table target = .ok h ↔
      ∃ fs, source.formulasReferencing target = .ok fs ∧
        h = { table, target, near := (fs.flatMap (·.quantities)).filter (· ≠ target) } := by
  unfold heuristic
  cases source.formulasReferencing target with
  | error cause => simp [bind, Except.bind]
  | ok fs => simp [bind, Except.bind, eq_comm]

/-- A target that is not known is searched for from the knowns. -/
theorem find_eq_found {table : DistanceTable} {d : Derivation} {cost n : Nat} (ht : target ∉ known)
    (hfind : find source settings table known target = .ok (.found d cost n)) :
    ∃ h s e rest, heuristic source table target = .ok h ∧ h.target = target ∧
      Relation.ReflTransGen (Round source settings h) (start h known) s ∧ Arrived h s e rest ∧
      d = reconstruct s.origins target ∧ cost = e.depth := by
  rw [find, if_neg ht] at hfind
  cases hh : heuristic source table target with
  | error cause =>
      rw [hh] at hfind
      cases hfind
  | ok h =>
      rw [hh] at hfind
      have htarget : h.target = target := by
        obtain ⟨fs, -, rfl⟩ := heuristic_eq_ok_iff.mp hh
        rfl
      obtain ⟨s, e, rest, hreach, harrived, hd, hcost, -⟩ := run_eq_found hfind
      exact ⟨h, s, e, rest, rfl, htarget, hreach, harrived, htarget ▸ hd, hcost⟩

/-! ## Computing a run -/

/-- The outcome of the search if it ends within some rounds.  Unlike `run` this evaluates by computation. -/
def runFor (source : Source) (settings : SearchSettings) (h : Heuristic) :
    Nat → State → Option (Except Error SearchOutcome)
  | 0, _ => none
  | n + 1, s =>
    match round source settings h s with
    | .inl outcome => some outcome
    | .inr t => runFor source settings h n t

theorem run_eq_of_runFor {n : Nat} {outcome : Except Error SearchOutcome}
    (hrun : runFor source settings h n s = some outcome) : run source settings h s = outcome := by
  induction n generalizing s with
  | zero => cases hrun
  | succ n ih =>
      rw [run_eq_round]
      unfold runFor at hrun
      split at hrun
      · exact Option.some.inj hrun
      · exact ih hrun

theorem find_eq_of_runFor {n : Nat} {table : DistanceTable} {outcome : Except Error SearchOutcome}
    (ht : target ∉ known) (hh : heuristic source table target = .ok h)
    (hrun : runFor source settings h n (start h known) = some outcome) :
    find source settings table known target = outcome := by
  rw [find, if_neg ht, hh]
  exact run_eq_of_runFor hrun

end Search

end FormulaNet

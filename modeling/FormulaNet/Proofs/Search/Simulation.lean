import FormulaNet.Proofs.Search.Run

/-!
# Searches that take the same course

Two searches end alike if they do the same round for round.  `Simulates` states this by a relation between
their states, and `Simulates.run_eq` draws the conclusion.  What a round does depends on what is in front of
the frontier, and on the source and the budget only where a quantity is expanded; searches that differ in
these alone are compared expansion by expansion.
-/

namespace FormulaNet.Search

variable {source source' : Source} {settings settings' : SearchSettings} {h h' : Heuristic} {s t : State}
variable {e : Entry} {rest : List Entry}

/-! ## What is in front -/

/-- In front of the frontier is nothing, a stale entry, or a live one of the target or of another quantity. -/
inductive Front (h : Heuristic) (s : State) : Prop
  | nothing : s.frontier = [] → Front h s
  | stale {e : Entry} {rest : List Entry} : s.frontier = e :: rest → isStale s e = true → Front h s
  | arrived {e : Entry} {rest : List Entry} : Arrived h s e rest → Front h s
  | other {e : Entry} {rest : List Entry} :
      s.frontier = e :: rest → isStale s e = false → e.quantity ≠ h.target → Front h s

theorem front (h : Heuristic) (s : State) : Front h s := by
  match hf : s.frontier with
  | [] => exact .nothing hf
  | e :: rest =>
      cases hstale : isStale s e with
      | true => exact .stale hf hstale
      | false =>
          by_cases htarget : e.quantity = h.target
          · exact .arrived ⟨hf, hstale, htarget⟩
          · exact .other hf hstale htarget

/-- The round that expands a quantity. -/
def expansion (source : Source) (settings : SearchSettings) (h : Heuristic) (s : State) (q : QuantityId)
    (rest : List Entry) : Except Error SearchOutcome ⊕ State :=
  if settings.maxExpansions ≤ s.expanded.length then
    .inl (.ok (.budgetExceeded s.expanded.length rest.length))
  else
    match source.formulasReferencing q with
    | .error cause => .inl (.error cause)
    | .ok fs =>
      match offerAll settings.maxFrontier h (s.expand q rest) fs with
      | .error size => .inl (.ok (.budgetExceeded (s.expanded.length + 1) size))
      | .ok t => .inr t

theorem round_of_nothing (hf : s.frontier = []) :
    round source settings h s = .inl (.ok (.noPath s.expanded.length)) := by
  simp only [round, hf]

theorem round_of_stale (hf : s.frontier = e :: rest) (hstale : isStale s e = true) :
    round source settings h s = .inr { s with frontier := rest } := by
  simp only [round, hf, hstale, ↓reduceIte]

theorem round_of_arrived (harrived : Arrived h s e rest) :
    round source settings h s =
      .inl (.ok (.found (reconstruct s.origins h.target) e.depth s.expanded.length)) := by
  simp only [round, harrived.frontier, harrived.live, harrived.target, Bool.false_eq_true, ↓reduceIte]

theorem round_of_other (hf : s.frontier = e :: rest) (hlive : isStale s e = false)
    (htarget : e.quantity ≠ h.target) :
    round source settings h s = expansion source settings h s e.quantity rest := by
  simp only [round, hf, hlive, htarget, Bool.false_eq_true, ↓reduceIte]
  rfl

theorem Round.round_eq (hstep : Round source settings h s t) : round source settings h s = .inr t := by
  cases hstep with
  | skip hf hstale => exact round_of_stale hf hstale
  | expand hf hlive htarget hbudget hfs ho =>
      rw [round_of_other hf hlive htarget]
      simp only [expansion, Nat.not_le.mpr hbudget, hfs, ho, ↓reduceIte]

/-! ## Simulation -/

/-- From related states the second search does what the first does, as far as outcomes of a kind are
concerned. -/
structure Simulates (Kind : Except Error SearchOutcome → Prop) (R : State → State → Prop)
    (next next' : State → Except Error SearchOutcome ⊕ State) : Prop where
  ends : ∀ {s t o}, R s t → Kind o → next s = .inl o → next' t = .inl o
  goesOn : ∀ {s t s'}, R s t → next s = .inr s' → ∃ t', next' t = .inr t' ∧ R s' t'

/-- Related states from which both searches end with the same outcome, or go on to related states. -/
theorem Simulates.of_liftRel {Kind : Except Error SearchOutcome → Prop} {R : State → State → Prop}
    {next next' : State → Except Error SearchOutcome ⊕ State}
    (hrounds : ∀ {s t}, R s t → Sum.LiftRel Eq R (next s) (next' t)) : Simulates Kind R next next' where
  ends := by
    intro s t o hst _ hround
    have hnext := hrounds hst
    rw [hround] at hnext
    generalize next' t = r at hnext ⊢
    cases hnext with
    | inl ho => rw [ho]
  goesOn := by
    intro s t s' hst hround
    have hnext := hrounds hst
    rw [hround] at hnext
    generalize next' t = r at hnext ⊢
    cases hnext with
    | inr hst' => exact ⟨_, rfl, hst'⟩

/-- A search that simulates another ends like it. -/
theorem Simulates.run_eq {Kind : Except Error SearchOutcome → Prop} {R : State → State → Prop}
    (hsim : Simulates Kind R (round source settings h) (round source' settings' h')) (hst : R s t)
    (hkind : Kind (run source settings h s)) : run source' settings' h' t = run source settings h s := by
  obtain ⟨s', hreach, hround⟩ := exists_round_eq_run source settings h s
  generalize run source settings h s = o at hkind hround ⊢
  induction hreach using Relation.ReflTransGen.head_induction_on generalizing t with
  | refl => rw [run_eq_round, hsim.ends hst hkind hround]
  | head hstep _ ih =>
      obtain ⟨t', ht', hst'⟩ := hsim.goesOn hst hstep.round_eq
      rw [run_eq_round, ht']
      exact ih hst'

/-- Where expansions do the same, so do rounds. -/
theorem round_eq_of_expansion {r : Except Error SearchOutcome ⊕ State}
    (hexpansion : ∀ q rest, expansion source settings h s q rest = r →
      expansion source' settings' h s q rest = r)
    (hround : round source settings h s = r) : round source' settings' h s = r := by
  cases front h s with
  | nothing hf =>
      rw [round_of_nothing hf] at hround ⊢
      exact hround
  | stale hf hstale =>
      rw [round_of_stale hf hstale] at hround ⊢
      exact hround
  | arrived harrived =>
      rw [round_of_arrived harrived] at hround ⊢
      exact hround
  | other hf hlive htarget =>
      rw [round_of_other hf hlive htarget] at hround ⊢
      exact hexpansion _ _ hround

/-- Searches whose expansions do the same take the same course. -/
theorem Simulates.of_expansion {Kind : Except Error SearchOutcome → Prop}
    (hexpansion : ∀ s q rest r, (∀ o, r = .inl o → Kind o) → expansion source settings h s q rest = r →
      expansion source' settings' h s q rest = r) :
    Simulates Kind Eq (round source settings h) (round source' settings' h) where
  ends := by
    rintro s _ o rfl hkind hround
    refine round_eq_of_expansion (fun q rest ↦ hexpansion s q rest _ ?_) hround
    intro o' ho
    cases ho
    exact hkind
  goesOn := by
    rintro s _ s' rfl hround
    exact ⟨s', round_eq_of_expansion (fun q rest ↦ hexpansion s q rest _ nofun) hround, rfl⟩

end FormulaNet.Search

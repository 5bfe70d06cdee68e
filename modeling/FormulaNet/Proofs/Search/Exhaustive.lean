import FormulaNet.Proofs.Search.Founded

/-!
# No formula is missed

The search looks at a formula only when one of its quantities is expanded, and passes it over as long as two
are left.  Still nothing is missed: what has a depth and is not expanded waits with that depth, however many
stale entries wait before it, and a formula with but one quantity left has given it a depth.  `Exhaustive`
states this of a state, and no round breaks it, whatever the estimate suggests.
-/

namespace FormulaNet.Search

variable {source : Source} {settings : SearchSettings} {h : Heuristic} {s t : State}
variable {formulas pending : List Formula} {known : List QuantityId} {q : QuantityId}

/-! ## The frontier -/

theorem mem_push {e a : Entry} {frontier : List Entry} : a ∈ push e frontier ↔ a = e ∨ a ∈ frontier := by
  induction frontier with
  | nil => simp [push]
  | cons b rest ih =>
      unfold push
      split
      · exact List.mem_cons
      · rw [List.mem_cons, ih, List.mem_cons, or_left_comm]

/-- A pushed entry takes its place: a relation that goes along with the order of entries still holds of any
two of which one waits behind the other. -/
theorem pairwise_push {r : Entry → Entry → Prop} {e : Entry} {frontier : List Entry}
    (trans : ∀ {a b c}, r a b → r b c → r a c) (hbefore : ∀ a ∈ frontier, e.before a = true → r e a)
    (hbehind : ∀ a ∈ frontier, ¬ e.before a = true → r a e) (hs : frontier.Pairwise r) :
    (push e frontier).Pairwise r := by
  induction frontier with
  | nil => exact List.pairwise_singleton r e
  | cons a rest ih =>
      obtain ⟨ha, hrest⟩ := List.pairwise_cons.mp hs
      unfold push
      split
      · next hfront =>
        have hea := hbefore a List.mem_cons_self hfront
        refine List.pairwise_cons.mpr ⟨fun b hb ↦ ?_, hs⟩
        rcases List.mem_cons.mp hb with rfl | hb
        · exact hea
        · exact trans hea (ha b hb)
      · next hfront =>
        have hrest := ih (fun b hb ↦ hbefore b (List.mem_cons_of_mem a hb))
          (fun b hb ↦ hbehind b (List.mem_cons_of_mem a hb)) hrest
        refine List.pairwise_cons.mpr ⟨fun b hb ↦ ?_, hrest⟩
        rcases mem_push.mp hb with rfl | hb
        · exact hbehind a List.mem_cons_self hfront
        · exact ha b hb

/-- At the start only knowns wait. -/
theorem exists_of_mem_frontier_start {e : Entry} :
    e ∈ (start h known).frontier → ∃ q ∈ known, ∃ k, e = h.entry q 0 k := by
  refine start_induction (P := fun s ↦ e ∈ s.frontier → ∃ q ∈ known, ∃ k, e = h.entry q 0 k)
    (fun he ↦ nomatch he) fun s q hq _ hs he ↦ ?_
  rcases mem_push.mp he with rfl | he
  · exact ⟨q, hq, s.arrivals, rfl⟩
  · exact hs he

/-- The quantity waits with this depth. -/
def Waits (h : Heuristic) (s : State) (q : QuantityId) (d : Nat) : Prop := ∃ k, h.entry q d k ∈ s.frontier

/-- If what has a depth and is not expanded waits, then it does so still when one more quantity has been let
wait. -/
theorem waits_wait {p : QuantityId} {d e : Nat}
    (hs : ∀ q d, s.depths[q]? = some d → q ∉ s.expanded → Waits h s q d)
    (hd : (s.wait h p e).depths[q]? = some d) (hq : q ∉ s.expanded) : Waits h (s.wait h p e) q d := by
  by_cases hpq : p = q
  · subst hpq
    simp only [State.wait, Std.TreeMap.getElem?_insert_self, Option.some.injEq] at hd
    subst hd
    exact ⟨s.arrivals, mem_push.mpr (.inl rfl)⟩
  · obtain ⟨k, hk⟩ := hs q d (by simpa [State.wait, Std.TreeMap.getElem?_insert, hpq] using hd) hq
    exact ⟨k, mem_push.mpr (.inr hk)⟩

/-! ## Exhaustive states -/

/-- What holds before a round, and between two offers; `pending` are the formulas still to be offered. -/
structure Exhaustive (formulas : List Formula) (h : Heuristic) (pending : List Formula) (s : State) :
    Prop where
  /-- What has a depth and is not expanded waits. -/
  waiting : ∀ q d, s.depths[q]? = some d → q ∉ s.expanded → Waits h s q d
  /-- A formula that was offered and has but one quantity left gave it a depth. -/
  applied : ∀ f ∈ formulas, f ∉ pending → ∀ q, Ready s f q → f.others q ≠ [] →
    ∃ d, s.depths[q]? = some d ∧ d ≤ outputDepth s (f.others q)

theorem exhaustive_start : Exhaustive formulas h [] (start h known) where
  waiting := start_induction
    (P := fun s ↦ ∀ q d, s.depths[q]? = some d → q ∉ s.expanded → Waits h s q d)
    (fun q d hd ↦ by simp [State.empty] at hd) fun _ _ _ _ hs _ _ hd hq ↦ waits_wait hs hd hq
  applied f hf _ q hr hne := by
    obtain ⟨p, hp⟩ := List.exists_mem_of_ne_nil _ hne
    exact absurd (hr.expanded hp) (by simp)

namespace Exhaustive

/-- Dropping a stale entry. -/
theorem skip (hs : Exhaustive formulas h pending s) {e : Entry} {rest : List Entry}
    (hf : s.frontier = e :: rest) (hstale : isStale s e = true) :
    Exhaustive formulas h pending { s with frontier := rest } where
  waiting q d hd hq := by
    obtain ⟨k, hmem⟩ := hs.waiting q d hd hq
    rw [hf] at hmem
    rcases List.mem_cons.mp hmem with rfl | hmem
    · simp [isStale, Heuristic.entry, hd, hq] at hstale
    · exact ⟨k, hmem⟩
  applied := hs.applied

/-- Expanding the quantity in front.  The formulas that relate it are to be offered now. -/
theorem expand (hformulas : ∀ f ∈ formulas, f.quantities.Nodup) (hs : Exhaustive formulas h [] s)
    {e : Entry} {rest : List Entry} (hf : s.frontier = e :: rest)
    (hpending : ∀ f, f ∈ pending ↔ f ∈ formulas ∧ e.quantity ∈ f.quantities) :
    Exhaustive formulas h pending (s.expand e.quantity rest) where
  waiting q d hd hq := by
    simp only [State.expand, List.mem_cons, not_or] at hd hq
    obtain ⟨k, hmem⟩ := hs.waiting q d hd hq.2
    rw [hf] at hmem
    rcases List.mem_cons.mp hmem with rfl | hmem
    · exact absurd rfl hq.1
    · exact ⟨k, hmem⟩
  applied f hff hnot q hr hne := by
    have hfar : e.quantity ∉ f.quantities := fun hef ↦ hnot ((hpending f).mpr ⟨hff, hef⟩)
    have hqs : q ∉ s.expanded := fun hq ↦ hr.mem.2 (List.mem_cons_of_mem _ hq)
    refine hs.applied f hff List.not_mem_nil q
      (ready_of_expanded (hformulas f hff) hr.mem.1 hqs fun p hp ↦ ?_) hne
    rcases List.mem_cons.mp (hr.expanded hp) with rfl | hp'
    · exact absurd (Formula.mem_others.mp hp).1 hfar
    · exact hp'

/-- An accepted offer. -/
theorem derive {f : Formula} (hs : Exhaustive formulas h (f :: pending) s) (hr : Ready s f q)
    (hi : improves s q (outputDepth s (f.others q)) = true) :
    Exhaustive formulas h pending (s.derive h f q) where
  waiting p d hd hp := waits_wait hs.waiting hd hp
  applied g hg hnot p hrg hne := by
    have hrg' : Ready s g p := hrg
    rw [hr.outputDepth_derive fun r hr ↦ hrg'.expanded hr]
    by_cases hpq : q = p
    · subst hpq
      refine ⟨outputDepth s (f.others q), by simp [State.derive, State.wait], ?_⟩
      by_cases hgf : g = f
      · rw [hgf]
      · -- the depth on record was small enough for this formula, and has become smaller
        obtain ⟨d, hd, hle⟩ := hs.applied g hg (by simp [hgf, hnot]) q hrg' hne
        exact Nat.le_trans (Nat.le_of_lt (improves_iff.mp hi d hd)) hle
    · have hgf : g ≠ f := by
        rintro rfl
        exact hpq (List.singleton_inj.mp (hr.symm.trans hrg'))
      obtain ⟨d, hd, hle⟩ := hs.applied g hg (by simp [hgf, hnot]) p hrg' hne
      exact ⟨d, by simpa [State.derive, State.wait, Std.TreeMap.getElem?_insert, hpq] using hd, hle⟩

/-- A refused offer: the formula is not ready, or its output has a depth that is small enough. -/
theorem refuse {f : Formula} (hs : Exhaustive formulas h (f :: pending) s) (hn : offer? h s f = none) :
    Exhaustive formulas h pending s where
  waiting := hs.waiting
  applied g hg hnot p hr hne := by
    by_cases hgf : g = f
    · subst hgf
      have hi := not_improves_of_offer?_eq_none hn hr
      unfold improves at hi
      split at hi
      · next d hd => exact ⟨d, hd, by simpa using hi⟩
      · cases hi
    · exact hs.applied g hg (by simp [hgf, hnot]) p hr hne

/-- A round keeps a state exhaustive. -/
theorem step (hsource : source.Lists formulas) (hs : Exhaustive formulas h [] s)
    (hstep : Round source settings h s t) : Exhaustive formulas h [] t := by
  cases hstep with
  | skip hf hstale => exact hs.skip hf hstale
  | @expand _ e rest fs hf hlive htarget hbudget hfs ho =>
      obtain ⟨fs', hfs', hmem⟩ := hsource.referencing e.quantity
      obtain rfl : fs = fs' := Except.ok.inj (hfs.symm.trans hfs')
      exact offerAll_induction (P := fun pending t ↦ Exhaustive formulas h pending t)
        (fun _ _ _ _ hr hi ht ↦ ht.derive hr hi) (fun _ _ _ hn ht ↦ ht.refuse hn)
        (hs.expand hsource.nodup hf hmem) ho

/-- All states that the rounds reach are exhaustive. -/
theorem reached (hsource : source.Lists formulas) (hs : Exhaustive formulas h [] s)
    (hreach : Relation.ReflTransGen (Round source settings h) s t) : Exhaustive formulas h [] t := by
  induction hreach with
  | refl => exact hs
  | tail _ hstep ih => exact ih.step hsource hstep

/-- Where nothing waits, everything with a depth has been expanded. -/
theorem mem_expanded (hs : Exhaustive formulas h pending s) (hf : s.frontier = []) (hq : q ∈ s.depths) :
    q ∈ s.expanded := by
  by_contra hqs
  obtain ⟨d, hd⟩ := Table.exists_of_mem hq
  obtain ⟨k, hmem⟩ := hs.waiting q d hd hqs
  rw [hf] at hmem
  cases hmem

end Exhaustive

end FormulaNet.Search

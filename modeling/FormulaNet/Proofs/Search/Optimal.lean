import FormulaNet.Proofs.Search.Estimate
import FormulaNet.Proofs.Search.Exhaustive
import Mathlib.Order.Bounds.Defs

/-!
# What is found has the least depth

`DerivedAt` are all depths at which a quantity can be derived, whatever formulas are chosen.  With a
consistent estimate every expanded quantity from which the target can be reached has its least depth.
`Guided` states this of a state together with what it rests on: nothing that waits is missing from the
frontier, the frontier is ordered by totals, and formulas whose inputs are all expanded have been applied.

Totals may fall from round to round where a formula has several inputs, so the order in which quantities
come up proves nothing by itself.  Instead `Guided.exists_waiting` finds, for every derivation of a quantity
that has not been expanded, one that waits on it and whose total does not exceed that of the derivation.
-/

namespace FormulaNet

/-- The quantity can be derived at this depth: a known at zero, and otherwise by a formula with some other
quantity, one deeper than the deepest of the others. -/
inductive DerivedAt (formulas : List Formula) (known : List QuantityId) : QuantityId → Nat → Prop
  | known {q : QuantityId} : q ∈ known → DerivedAt formulas known q 0
  | apply {f : Formula} {q : QuantityId} {depth : QuantityId → Nat} :
      f ∈ formulas → q ∈ f.quantities → f.others q ≠ [] →
      (∀ p ∈ f.others q, DerivedAt formulas known p (depth p)) →
      DerivedAt formulas known q (((f.others q).map depth).foldr max 0 + 1)

namespace Search

variable {source : Source} {settings : SearchSettings} {h : Heuristic} {s t : State}
variable {formulas pending : List Formula} {quantities : List Quantity} {known : List QuantityId}
variable {p q target : QuantityId} {d n : Nat}

/-! ## The frontier -/

/-- The totals of a frontier ascend. -/
def Ascending (frontier : List Entry) : Prop := frontier.Pairwise (·.total ≤ ·.total)

theorem Entry.total_le_of_before {a b : Entry} (h : a.before b = true) : a.total ≤ b.total := by
  simp only [Entry.before, Bool.or_eq_true, Bool.not_eq_true', Bool.and_eq_true, decide_eq_true_eq] at h
  rcases h with h | ⟨h, -⟩
  · exact Distance.le_of_not_le fun hle ↦ Bool.false_ne_true (h.symm.trans hle)
  · rw [h]
    exact Distance.le_refl b.total

theorem Entry.total_le_of_not_before {a b : Entry} (h : ¬ a.before b = true) : b.total ≤ a.total := by
  simp only [Entry.before, Bool.or_eq_true, Bool.not_eq_true', not_or] at h
  exact (by simpa using h.1 : b.total.le a.total = true)

theorem ascending_push {e : Entry} {frontier : List Entry} (hf : Ascending frontier) :
    Ascending (push e frontier) :=
  pairwise_push Distance.le_trans (fun _ _ ↦ Entry.total_le_of_before)
    (fun _ _ ↦ Entry.total_le_of_not_before) hf

/-! ## Guided states -/

/-- What holds before a round, and between two offers; `pending` are the formulas still to be offered. -/
structure Guided (formulas : List Formula) (known : List QuantityId) (h : Heuristic)
    (pending : List Formula) (s : State) : Prop where
  /-- What has a depth and is not expanded waits. -/
  waiting : ∀ q d, s.depths[q]? = some d → q ∉ s.expanded → Waits h s q d
  ascending : Ascending s.frontier
  entry : ∀ e ∈ s.frontier, e = h.entry e.quantity e.depth e.arrival
  /-- A formula that was offered and has but one quantity left gave it a depth. -/
  applied : ∀ f ∈ formulas, f ∉ pending → ∀ q, Ready s f q → f.others q ≠ [] →
    ∃ d, s.depths[q]? = some d ∧ d ≤ outputDepth s (f.others q)
  /-- What is expanded, and not out of reach of the target, has its least depth. -/
  least : ∀ q ∈ s.expanded, h.estimate q ≠ .unreachable → ∀ n, DerivedAt formulas known q n →
    s.depths.getD q 0 ≤ n

theorem ascending_start : Ascending (start h known).frontier := by
  exact start_induction (P := fun s ↦ Ascending s.frontier) List.Pairwise.nil
    fun _ _ _ _ hs ↦ ascending_push hs

theorem guided_start : Guided formulas known h [] (start h known) :=
  have hexhaustive : Exhaustive formulas h [] (start h known) := exhaustive_start
  { waiting := hexhaustive.waiting
    ascending := ascending_start
    entry := by
      intro e he
      obtain ⟨q, -, k, rfl⟩ := exists_of_mem_frontier_start he
      rfl
    applied := hexhaustive.applied
    least := fun q hq ↦ by simp at hq }

/-- The least depths of the inputs bound the depth of an output. -/
theorem outputDepth_le {inputs : List QuantityId} {depth : QuantityId → Nat}
    (hin : ∀ p ∈ inputs, p ∈ s.depths) (hle : ∀ p ∈ inputs, s.depths.getD p 0 ≤ depth p) :
    outputDepth s inputs ≤ (inputs.map depth).foldr max 0 + 1 := by
  rw [outputDepth_eq hin, Nat.add_le_add_iff_right]
  clear hin
  induction inputs with
  | nil => exact Nat.le_refl 0
  | cons p inputs ih =>
      rw [List.map_cons, List.map_cons, List.foldr_cons, List.foldr_cons]
      have hp := hle p List.mem_cons_self
      have hrest := ih fun r hr ↦ hle r (List.mem_cons_of_mem p hr)
      omega

/-- From one quantity of a formula to another the estimate changes by one hop at most. -/
def Consistent (formulas : List Formula) (h : Heuristic) : Prop :=
  ∀ a b, Related formulas a b → h.estimate a ≤ (h.estimate b).after 1

theorem Consistent.reaches {f : Formula} (hcons : Consistent formulas h) (hf : f ∈ formulas)
    (hq : q ∈ f.quantities) (hp : p ∈ f.quantities) (hreach : h.estimate q ≠ .unreachable) :
    h.estimate p ≠ .unreachable := by
  intro hpu
  have hpq := hcons p q ⟨f, hf, hp, hq⟩
  rw [hpu] at hpq
  cases hqe : h.estimate q with
  | unreachable => exact hreach hqe
  | hops n => simp [hqe] at hpq

namespace Guided

theorem exhaustive (hs : Guided formulas known h pending s) : Exhaustive formulas h pending s :=
  ⟨hs.waiting, hs.applied⟩

/-- Every derivation of a quantity that has not been expanded waits on some quantity whose total does not
exceed that of the derivation. -/
theorem exists_waiting (hformulas : ∀ f ∈ formulas, f.quantities.Nodup) (hcons : Consistent formulas h)
    (hfound : Founded formulas known s) (hs : Guided formulas known h [] s)
    (hn : DerivedAt formulas known q n) (hreach : h.estimate q ≠ .unreachable) (hq : q ∉ s.expanded) :
    ∃ p m, p ∉ s.expanded ∧ s.depths[p]? = some m ∧
      (h.estimate p).after m ≤ (h.estimate q).after n := by
  induction hn with
  | @known q hk => exact ⟨q, 0, hq, hfound.known_depth q hk, Distance.le_refl _⟩
  | @apply f q depth hf hqf hne hin ih =>
      have hreach' : ∀ p ∈ f.others q, h.estimate p ≠ .unreachable := fun p hp ↦
        hcons.reaches hf hqf (Formula.mem_others.mp hp).1 hreach
      by_cases hall : ∀ p ∈ f.others q, p ∈ s.expanded
      · -- the formula has been applied, to inputs at their least depths
        obtain ⟨m, hm, hle⟩ := hs.applied f hf List.not_mem_nil q
          (ready_of_expanded (hformulas f hf) hqf hq hall) hne
        have hdepth := outputDepth_le (fun p hp ↦ hfound.expanded p (hall p hp))
          fun p hp ↦ hs.least p (hall p hp) (hreach' p hp) _ (hin p hp)
        exact ⟨q, m, hq, hm, Distance.after_mono (Nat.le_trans hle hdepth)⟩
      · -- some input is not expanded itself, and lies one hop from the output
        push Not at hall
        obtain ⟨p, hp, hps⟩ := hall
        obtain ⟨r, m, hr, hm, hle⟩ := ih p hp (hreach' p hp) hps
        refine ⟨r, m, hr, hm, Distance.le_trans hle ?_⟩
        have hpq := hcons p q ⟨f, hf, (Formula.mem_others.mp hp).1, hqf⟩
        have hstep := Distance.after_le_after (depth p) hpq
        rw [Distance.after_after] at hstep
        refine Distance.le_trans hstep (Distance.after_mono ?_)
        have := le_foldr_max depth hp
        omega

/-- The quantity in front has its least depth. -/
theorem front_least (hformulas : ∀ f ∈ formulas, f.quantities.Nodup) (hcons : Consistent formulas h)
    (hfound : Founded formulas known s) (hs : Guided formulas known h [] s) {e : Entry} {rest : List Entry}
    (hf : s.frontier = e :: rest) (hlive : isStale s e = false)
    (hreach : h.estimate e.quantity ≠ .unreachable) (hn : DerivedAt formulas known e.quantity n) :
    e.depth ≤ n := by
  have hq : e.quantity ∉ s.expanded := by
    simp only [isStale, Bool.or_eq_false_iff, decide_eq_false_iff_not] at hlive
    exact hlive.1
  obtain ⟨p, m, hp, hm, hle⟩ := hs.exists_waiting hformulas hcons hfound hn hreach hq
  have hfront : e.total ≤ (h.estimate p).after m := by
    obtain ⟨k, hmem⟩ := hs.waiting p m hm hp
    have hasc := hs.ascending
    rw [hf] at hmem hasc
    rcases List.mem_cons.mp hmem with he | hmem
    · rw [← he]
      exact Distance.le_refl _
    · exact (List.pairwise_cons.mp hasc).1 _ hmem
  rw [hs.entry e (by rw [hf]; exact List.mem_cons_self)] at hfront
  have htotal := Distance.le_trans hfront hle
  cases hest : h.estimate e.quantity with
  | unreachable => exact absurd hest hreach
  | hops k =>
      simp only [Heuristic.entry, hest, Distance.after_hops, Distance.hops_le_hops] at htotal
      omega

/-- Dropping a stale entry. -/
theorem skip (hs : Guided formulas known h pending s) {e : Entry} {rest : List Entry}
    (hf : s.frontier = e :: rest) (hstale : isStale s e = true) :
    Guided formulas known h pending { s with frontier := rest } where
  waiting := (hs.exhaustive.skip hf hstale).waiting
  ascending := by
    have hasc := hs.ascending
    rw [hf] at hasc
    exact (List.pairwise_cons.mp hasc).2
  entry e' he' := hs.entry e' (by rw [hf]; exact List.mem_cons_of_mem e he')
  applied := hs.applied
  least := hs.least

/-- Expanding the quantity in front.  The formulas that relate it are to be offered now. -/
theorem expand (hformulas : ∀ f ∈ formulas, f.quantities.Nodup) (hs : Guided formulas known h [] s)
    {e : Entry} {rest : List Entry} (hf : s.frontier = e :: rest) (hlive : isStale s e = false)
    (hpending : ∀ f, f ∈ pending ↔ f ∈ formulas ∧ e.quantity ∈ f.quantities)
    (hleast : h.estimate e.quantity ≠ .unreachable →
      ∀ n, DerivedAt formulas known e.quantity n → e.depth ≤ n) :
    Guided formulas known h pending (s.expand e.quantity rest) where
  waiting := (hs.exhaustive.expand hformulas hf hpending).waiting
  ascending := by
    have hasc := hs.ascending
    rw [hf] at hasc
    exact (List.pairwise_cons.mp hasc).2
  entry e' he' := hs.entry e' (by rw [hf]; exact List.mem_cons_of_mem e he')
  applied := (hs.exhaustive.expand hformulas hf hpending).applied
  least q hq hreach n hn := by
    rcases List.mem_cons.mp hq with rfl | hq
    · simp only [isStale, Bool.or_eq_false_iff, bne_eq_false_iff_eq] at hlive
      have hdepth : (s.expand e.quantity rest).depths.getD e.quantity 0 = e.depth := by
        simp [State.expand, Std.TreeMap.getD_eq_getD_getElem?, hlive.2]
      exact hdepth ▸ hleast hreach n hn
    · exact hs.least q hq hreach n hn

/-- An accepted offer. -/
theorem derive {f : Formula} (hs : Guided formulas known h (f :: pending) s) (hr : Ready s f q)
    (hi : improves s q (outputDepth s (f.others q)) = true) :
    Guided formulas known h pending (s.derive h f q) where
  waiting := (hs.exhaustive.derive hr hi).waiting
  ascending := ascending_push hs.ascending
  entry e he := by
    rcases mem_push.mp he with rfl | he
    · rfl
    · exact hs.entry e he
  applied := (hs.exhaustive.derive hr hi).applied
  least p hp hreach n hn := by
    rw [Std.TreeMap.getD_eq_getD_getElem?, hr.getElem?_depths hp, ← Std.TreeMap.getD_eq_getD_getElem?]
    exact hs.least p hp hreach n hn

/-- A refused offer: the formula is not ready, or its output has a depth that is small enough. -/
theorem refuse {f : Formula} (hs : Guided formulas known h (f :: pending) s) (hn : offer? h s f = none) :
    Guided formulas known h pending s where
  waiting := hs.waiting
  ascending := hs.ascending
  entry := hs.entry
  applied := (hs.exhaustive.refuse hn).applied
  least := hs.least

/-- A round keeps a state guided. -/
theorem step (hsource : source.Lists formulas) (hcons : Consistent formulas h)
    (hfound : Founded formulas known s) (hs : Guided formulas known h [] s)
    (hstep : Round source settings h s t) : Guided formulas known h [] t := by
  cases hstep with
  | skip hf hstale => exact hs.skip hf hstale
  | @expand _ e rest fs hf hlive htarget hbudget hfs ho =>
      obtain ⟨fs', hfs', hmem⟩ := hsource.referencing e.quantity
      obtain rfl : fs = fs' := Except.ok.inj (hfs.symm.trans hfs')
      have hexpanded : Guided formulas known h fs (s.expand e.quantity rest) :=
        hs.expand hsource.nodup hf hlive hmem fun hreach n hn ↦
          hs.front_least hsource.nodup hcons hfound hf hlive hreach hn
      exact offerAll_induction (P := fun pending t ↦ Guided formulas known h pending t)
        (fun _ _ _ _ hr hi ht ↦ ht.derive hr hi) (fun _ _ _ hn ht ↦ ht.refuse hn) hexpanded ho

/-- All states that the rounds reach are guided. -/
theorem reached (hsource : source.Lists formulas) (hcons : Consistent formulas h)
    (hfound : Founded formulas known s) (hs : Guided formulas known h [] s)
    (hreach : Relation.ReflTransGen (Round source settings h) s t) : Guided formulas known h [] t := by
  induction hreach with
  | refl => exact hs
  | tail hsteps hstep ih => exact ih.step hsource hcons (hfound.reached hsource hsteps) hstep

end Guided

/-! ## The least depth -/

/-- The depth on record is one at which the quantity can be derived. -/
theorem Founded.derivedAt (hs : Founded formulas known s) (hd : s.depths[q]? = some d) :
    DerivedAt formulas known q d := by
  induction d using Nat.strong_induction_on generalizing q with
  | _ d ih =>
  by_cases hq : q ∈ known
  · obtain rfl : d = 0 := Option.some.inj (hd.symm.trans (hs.known_depth q hq))
    exact .known hq
  · obtain ⟨o, ho⟩ := Table.exists_of_mem (hs.origin q (Table.mem_of_eq_some hd) hq)
    have hold := hs.founds q o ho
    obtain ⟨f, hf, hqf, rfl⟩ := hold.formula
    have hin : ∀ p ∈ f.others q, p ∈ s.depths := fun p hp ↦ hs.expanded p (hold.inputs p hp)
    obtain rfl : d = outputDepth s (f.others q) := Option.some.inj (hd.symm.trans hold.depth)
    rw [outputDepth_eq hin]
    refine .apply hf hqf hold.nonempty fun p hp ↦ ?_
    obtain ⟨m, hm⟩ := Table.exists_of_mem (hin p hp)
    have hlt := getD_lt_outputDepth hin hp
    rw [Std.TreeMap.getD_eq_getD_getElem?, hm, Option.getD_some] at hlt ⊢
    exact ih m hlt hm

/-- **What is found has the least depth.**  If the table of distances is that of the catalogue, then the
cost of what is found is the least depth at which the target can be derived, whatever formulas are chosen. -/
theorem isLeast_cost_of_find {c : Catalogue} {derivation : Derivation} {cost : Nat} (hc : c.Grown)
    (ht : target ∉ known)
    (hfind : find c.source settings (.build c.allQuantities c.allFormulas) known target =
      .ok (.found derivation cost n)) :
    IsLeast {depth | DerivedAt c.allFormulas known target depth} cost := by
  have hsource := hc.coherent.lists
  obtain ⟨h, s, e, rest, hh, rfl, hreach, harrived, -, rfl⟩ := find_eq_found ht hfind
  have hcons : Consistent c.allFormulas h := fun a b hab ↦ estimate_le_after hsource hh hab
  have hfound : Founded c.allFormulas known s := founded_start.reached hsource hreach
  have hguided : Guided c.allFormulas known h [] s :=
    guided_start.reached hsource hcons founded_start hreach
  rw [← harrived.target]
  constructor
  · have hlive := harrived.live
    simp only [isStale, Bool.or_eq_false_iff, bne_eq_false_iff_eq] at hlive
    exact hfound.derivedAt hlive.2
  · intro m hm
    refine hguided.front_least hsource.nodup hcons hfound harrived.frontier harrived.live ?_ hm
    simp [Heuristic.estimate, harrived.target]

/-- Two formulas are the least that lead from mass, time and velocity to the force. -/
theorem isLeast_cost_force :
    find Catalogue.mechanics.source {}
        (.build Catalogue.mechanics.allQuantities Catalogue.mechanics.allFormulas) [5, 2, 4] 1 =
      .ok (.found [.find 1 "Use formula 2 to find quantity 3" 2 [5, 4] 3,
        .find 2 "Use formula 1 to find quantity 1" 1 [2, 3] 1] 2 4) ∧
    IsLeast {depth | DerivedAt Catalogue.mechanics.allFormulas [5, 2, 4] 1 depth} 2 := by
  have hfind : find Catalogue.mechanics.source {}
      (.build Catalogue.mechanics.allQuantities Catalogue.mechanics.allFormulas) [5, 2, 4] 1 =
        .ok (.found [.find 1 "Use formula 2 to find quantity 3" 2 [5, 4] 3,
          .find 2 "Use formula 1 to find quantity 1" 1 [2, 3] 1] 2 4) :=
    find_eq_of_runFor (n := 9) (by decide) rfl rfl
  exact ⟨hfind, isLeast_cost_of_find Catalogue.grown_mechanics (by decide) hfind⟩

end Search

end FormulaNet

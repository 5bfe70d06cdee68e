import FormulaNet.Proofs.Search.Estimate
import FormulaNet.Proofs.Search.Exhaustive
import FormulaNet.Proofs.Search.Simulation

/-!
# The order of the knowns

Knowns are put into the frontier in the order in which they are given, and the counter of arrivals goes along;
so two lists of the same knowns lead to frontiers whose entries have arrived at different times, and the time
of arrival takes part in the order of the frontier.  It decides only between entries of one quantity, though.
The knowns are different quantities, and what is put in later arrives later in both searches; so both
frontiers have the same entries in the same order, but for the times.  `Agree` states this of two states, and
all rounds keep it.
-/

namespace FormulaNet.Search

variable {source : Source} {settings : SearchSettings} {h : Heuristic} {s t : State}
variable {known known' inputs : List QuantityId} {frontier rest rest' : List Entry} {a b c e e' : Entry}
variable {f : Formula} {q : QuantityId} {d : Nat}

/-! ## The order of entries -/

namespace Entry

theorem before_iff : a.before b = true ↔ ¬ b.total ≤ a.total ∨ a.total = b.total ∧
    (a.quantity < b.quantity ∨ a.quantity = b.quantity ∧ a.arrival < b.arrival) := by
  simp only [before, Bool.or_eq_true, Bool.not_eq_true', Bool.and_eq_true, decide_eq_true_eq]
  exact or_congr_left Bool.eq_false_iff

theorem before_trans (hab : a.before b = true) (hbc : b.before c = true) : a.before c = true := by
  rw [before_iff] at hab hbc ⊢
  rcases hab with hab | ⟨hab, hab'⟩ <;> rcases hbc with hbc | ⟨hbc, hbc'⟩
  · exact .inl fun hca ↦ hbc (Distance.le_trans hca (Distance.le_of_not_le hab))
  · exact .inl (hbc ▸ hab)
  · exact .inl (hab ▸ hbc)
  · refine .inr ⟨hab.trans hbc, ?_⟩
    rcases hab' with hlt | ⟨heq, hlt⟩ <;> rcases hbc' with hlt' | ⟨heq', hlt'⟩
    · exact .inl (Nat.lt_trans hlt hlt')
    · exact .inl (heq' ▸ hlt)
    · exact .inl (heq ▸ hlt')
    · exact .inr ⟨heq.trans heq', Nat.lt_trans hlt hlt'⟩

theorem not_before_self (a : Entry) : ¬ a.before a = true := by
  rw [before_iff]
  rintro (hle | ⟨-, hlt | ⟨-, hlt⟩⟩)
  · exact hle (Distance.le_refl a.total)
  · exact Nat.lt_irrefl _ hlt
  · exact Nat.lt_irrefl _ hlt

theorem before_asymm (hab : a.before b = true) : ¬ b.before a = true :=
  fun hba ↦ not_before_self a (before_trans hab hba)

/-- Entries of different quantities are in some order. -/
theorem before_of_not_before (hne : a.quantity ≠ b.quantity) (hab : ¬ a.before b = true) :
    b.before a = true := by
  rw [before_iff, not_or, not_not] at hab
  obtain ⟨hle, hid⟩ := hab
  rw [before_iff]
  by_cases htotal : a.total = b.total
  · refine .inr ⟨htotal.symm, .inl ?_⟩
    have hge : ¬ a.quantity < b.quantity := fun hlt ↦ hid ⟨htotal, .inl hlt⟩
    exact Nat.lt_of_le_of_ne (Nat.not_lt.mp hge) hne.symm
  · exact .inl fun hge ↦ htotal (Distance.le_antisymm hge hle)

/-- The entry without its time of arrival. -/
def timeless (e : Entry) : Entry := { e with arrival := 0 }

@[simp] theorem quantity_timeless (e : Entry) : e.timeless.quantity = e.quantity := rfl
@[simp] theorem depth_timeless (e : Entry) : e.timeless.depth = e.depth := rfl
@[simp] theorem total_timeless (e : Entry) : e.timeless.total = e.total := rfl
@[simp] theorem arrival_timeless (e : Entry) : e.timeless.arrival = 0 := rfl

theorem quantity_eq_of_timeless (he : e'.timeless = e.timeless) : e'.quantity = e.quantity := by
  rw [← quantity_timeless, he, quantity_timeless]

theorem depth_eq_of_timeless (he : e'.timeless = e.timeless) : e'.depth = e.depth := by
  rw [← depth_timeless, he, depth_timeless]

/-- The time of arrival is no reason to go before an entry that arrived earlier. -/
theorem before_timeless (hle : a.arrival ≤ e.arrival) : e.timeless.before a.timeless = e.before a := by
  rw [Bool.eq_iff_iff, before_iff, before_iff]
  simp [Nat.not_lt.mpr hle]

end Entry

@[simp] theorem timeless_entry (h : Heuristic) (q : QuantityId) (d k : Nat) :
    (h.entry q d k).timeless = h.entry q d 0 := rfl

/-- What arrives last is put in the same place whether the times are looked at or not. -/
theorem map_timeless_push (hlast : ∀ a ∈ frontier, a.arrival ≤ e.arrival) :
    (push e frontier).map Entry.timeless = push e.timeless (frontier.map Entry.timeless) := by
  induction frontier with
  | nil => rfl
  | cons a rest ih =>
      rw [List.map_cons, push, push, Entry.before_timeless (hlast a List.mem_cons_self)]
      split
      · rfl
      · rw [List.map_cons, ih fun b hb ↦ hlast b (List.mem_cons_of_mem a hb)]

/-! ## States that agree -/

/-- Every entry in the frontier has arrived before the next one. -/
def Timely (s : State) : Prop := ∀ e ∈ s.frontier, e.arrival < s.arrivals

/-- Letting a quantity wait keeps a state timely. -/
theorem Timely.wait (hs : Timely s) (h : Heuristic) (q : QuantityId) (d : Nat) : Timely (s.wait h q d) := by
  intro e he
  rcases mem_push.mp he with rfl | he
  · exact Nat.lt_succ_self s.arrivals
  · exact Nat.lt_succ_of_lt (hs e he)

theorem Timely.map_timeless_wait (hs : Timely s) (h : Heuristic) (q : QuantityId) (d : Nat) :
    (s.wait h q d).frontier.map Entry.timeless =
      push (h.entry q d 0) (s.frontier.map Entry.timeless) :=
  map_timeless_push fun a ha ↦ Nat.le_of_lt (hs a ha)

/-- The states are the same but for the times at which their entries have arrived. -/
structure Agree (s t : State) : Prop where
  depths : ∀ q : QuantityId, s.depths[q]? = t.depths[q]?
  origins : s.origins = t.origins
  expanded : s.expanded = t.expanded
  frontier : s.frontier.map Entry.timeless = t.frontier.map Entry.timeless
  timely : Timely s
  timely' : Timely t

namespace Agree

/-- What waits in front of the one frontier waits in front of the other, with another time. -/
theorem exists_front (hst : Agree s t) (hf : s.frontier = e :: rest) :
    ∃ e' rest', t.frontier = e' :: rest' ∧ e'.timeless = e.timeless ∧
      Agree { s with frontier := rest } { t with frontier := rest' } := by
  have hmap := hst.frontier
  rw [hf, List.map_cons] at hmap
  obtain ⟨e', rest', hf', he, hrest⟩ := List.map_eq_cons_iff.mp hmap.symm
  refine ⟨e', rest', hf', he, hst.depths, hst.origins, hst.expanded, hrest.symm, ?_, ?_⟩
  · exact fun a ha ↦ hst.timely a (hf ▸ List.mem_cons_of_mem e ha)
  · exact fun a ha ↦ hst.timely' a (hf' ▸ List.mem_cons_of_mem e' ha)

theorem length_frontier (hst : Agree s t) : s.frontier.length = t.frontier.length := by
  rw [← List.length_map Entry.timeless, hst.frontier, List.length_map]

theorem isStale_eq (hst : Agree s t) (he : e'.timeless = e.timeless) : isStale s e = isStale t e' := by
  rw [isStale, isStale, Entry.quantity_eq_of_timeless he, Entry.depth_eq_of_timeless he, hst.expanded,
    hst.depths]

theorem outputDepth_eq (hst : Agree s t) : outputDepth s inputs = outputDepth t inputs :=
  outputDepth_congr fun p _ ↦ hst.depths p

theorem improves_eq (hst : Agree s t) : improves s q d = improves t q d := by
  rw [improves, improves, hst.depths]

theorem ready_iff (hst : Agree s t) : Ready s f q ↔ Ready t f q := by
  rw [Ready, Ready, hst.expanded]

theorem expand (hst : Agree { s with frontier := rest } { t with frontier := rest' }) (q : QuantityId) :
    Agree (s.expand q rest) (t.expand q rest') :=
  ⟨hst.depths, hst.origins, congrArg (q :: ·) hst.expanded, hst.frontier, hst.timely, hst.timely'⟩

theorem wait (hst : Agree s t) (h : Heuristic) (q : QuantityId) (d : Nat) :
    Agree (s.wait h q d) (t.wait h q d) where
  depths p := by
    rw [State.wait, State.wait, Std.TreeMap.getElem?_insert, Std.TreeMap.getElem?_insert, hst.depths]
  origins := hst.origins
  expanded := hst.expanded
  frontier := by rw [hst.timely.map_timeless_wait, hst.timely'.map_timeless_wait, hst.frontier]
  timely := hst.timely.wait h q d
  timely' := hst.timely'.wait h q d

theorem derive (hst : Agree s t) : Agree (s.derive h f q) (t.derive h f q) := by
  have hwait := hst.wait h q (outputDepth s (f.others q))
  rw [State.derive, State.derive, ← hst.outputDepth_eq, hst.origins]
  exact ⟨hwait.depths, rfl, hwait.expanded, hwait.frontier, hwait.timely, hwait.timely'⟩

/-- An offer is accepted in both states or in none. -/
theorem offer? (hst : Agree s t) : Option.Rel Agree (offer? h s f) (offer? h t f) := by
  cases hs : Search.offer? h s f with
  | some s' =>
      obtain ⟨q, hready, himproves, rfl⟩ := offer?_eq_some_iff.mp hs
      rw [hst.outputDepth_eq, hst.improves_eq] at himproves
      rw [offer?_eq_some_iff.mpr ⟨q, hst.ready_iff.mp hready, himproves, rfl⟩]
      exact .some hst.derive
  | none =>
      cases ht : Search.offer? h t f with
      | none => exact .none
      | some t' =>
          obtain ⟨q, hready, himproves, rfl⟩ := offer?_eq_some_iff.mp ht
          rw [← hst.outputDepth_eq, ← hst.improves_eq] at himproves
          rw [offer?_eq_some_iff.mpr ⟨q, hst.ready_iff.mpr hready, himproves, rfl⟩] at hs
          cases hs

/-- Offering formulas in turn leads to states that agree, or the frontier gets too large in both. -/
theorem offerAll (hst : Agree s t) (maxFrontier : Nat) (h : Heuristic) (fs : List Formula) :
    (∃ size, offerAll maxFrontier h s fs = .error size ∧ offerAll maxFrontier h t fs = .error size) ∨
      ∃ s' t', offerAll maxFrontier h s fs = .ok s' ∧ offerAll maxFrontier h t fs = .ok t' ∧ Agree s' t' := by
  induction fs generalizing s t with
  | nil => exact .inr ⟨s, t, rfl, rfl, hst⟩
  | cons f fs ih =>
      have hoffer : Option.Rel Agree (Search.offer? h s f) (Search.offer? h t f) := hst.offer?
      unfold Search.offerAll
      cases hs : Search.offer? h s f <;> cases ht : Search.offer? h t f <;> rw [hs, ht] at hoffer <;>
        cases hoffer
      · exact ih hst
      · next hst' =>
        dsimp only
        rw [hst'.length_frontier]
        split
        · exact .inl ⟨_, rfl, rfl⟩
        · exact ih hst'

/-- An expansion ends both searches with the same outcome, or leads to states that agree. -/
theorem expansion (hst : Agree { s with frontier := rest } { t with frontier := rest' }) :
    Sum.LiftRel Eq Agree (expansion source settings h s q rest) (expansion source settings h t q rest') := by
  have hexpanded : s.expanded = t.expanded := hst.expanded
  have hlength : rest.length = rest'.length := hst.length_frontier
  rw [Search.expansion, Search.expansion, hexpanded, hlength]
  split
  · exact .inl rfl
  · cases source.formulasReferencing q with
    | error cause => exact .inl rfl
    | ok fs =>
        rcases (hst.expand q).offerAll settings.maxFrontier h fs with
          ⟨size, hs, ht⟩ | ⟨s', t', hs, ht, hst'⟩
        · simp only [hs, ht]
          exact .inl rfl
        · simp only [hs, ht]
          exact .inr hst'

/-- A round ends both searches with the same outcome, or leads to states that agree. -/
theorem round (hst : Agree s t) :
    Sum.LiftRel Eq Agree (round source settings h s) (round source settings h t) := by
  cases front h s with
  | nothing hf =>
      have hf' : t.frontier = [] := by simpa [hf] using hst.frontier.symm
      rw [round_of_nothing hf, round_of_nothing hf', hst.expanded]
      exact .inl rfl
  | stale hf hstale =>
      obtain ⟨e', rest', hf', he, hrest⟩ := hst.exists_front hf
      rw [round_of_stale hf hstale, round_of_stale hf' (hst.isStale_eq he ▸ hstale)]
      exact .inr hrest
  | @arrived e rest harrived =>
      obtain ⟨e', rest', hf', he, -⟩ := hst.exists_front harrived.frontier
      have harrived' : Arrived h t e' rest' :=
        ⟨hf', hst.isStale_eq he ▸ harrived.live, (Entry.quantity_eq_of_timeless he).trans harrived.target⟩
      rw [round_of_arrived harrived, round_of_arrived harrived', hst.origins, hst.expanded,
        Entry.depth_eq_of_timeless he]
      exact .inl rfl
  | @other e rest hf hlive htarget =>
      obtain ⟨e', rest', hf', he, hrest⟩ := hst.exists_front hf
      have hquantity := Entry.quantity_eq_of_timeless he
      rw [round_of_other hf hlive htarget,
        round_of_other hf' (hst.isStale_eq he ▸ hlive) (hquantity ▸ htarget), hquantity]
      exact hrest.expansion

end Agree

/-- Searches from states that agree take the same course. -/
theorem simulates_agree :
    Simulates (fun _ ↦ True) Agree (round source settings h) (round source settings h) :=
  .of_liftRel fun hst ↦ hst.round

/-! ## The start -/

/-- Nothing but knowns wait, each once and in the order of their entries. -/
structure Initial (h : Heuristic) (s : State) : Prop where
  timely : Timely s
  ordered : (s.frontier.map Entry.timeless).Pairwise (·.before ·)
  waiting : ∀ e, e ∈ s.frontier.map Entry.timeless ↔ ∃ q ∈ s.depths, e = h.entry q 0 0

theorem initial_start : Initial h (start h known) := by
  refine start_induction (P := Initial h) ?_ fun s q _ hnew hs ↦ ?_
  · exact ⟨fun e he ↦ (nomatch he), List.Pairwise.nil, by simp [State.empty]⟩
  · have hother : ∀ e ∈ s.frontier.map Entry.timeless, q ≠ e.quantity := by
      rintro e he rfl
      obtain ⟨p, hp, rfl⟩ := (hs.waiting e).mp he
      exact hnew hp
    refine ⟨hs.timely.wait h q 0, ?_, fun e ↦ ?_⟩
    · rw [hs.timely.map_timeless_wait]
      refine pairwise_push Entry.before_trans (fun _ _ hbefore ↦ hbefore) (fun e he ↦ ?_) hs.ordered
      exact Entry.before_of_not_before (hother e he)
    · rw [hs.timely.map_timeless_wait, mem_push, hs.waiting]
      simp only [State.wait, Std.TreeMap.mem_insert]
      constructor
      · rintro (rfl | ⟨p, hp, rfl⟩)
        · exact ⟨q, .inl (by simp), rfl⟩
        · exact ⟨p, .inr hp, rfl⟩
      · rintro ⟨p, hp | hp, rfl⟩
        · obtain rfl : q = p := by simpa using hp
          exact .inl rfl
        · exact .inr ⟨p, hp, rfl⟩

/-- Lists of the same knowns lead to starts that agree. -/
theorem agree_start (hsame : ∀ q, q ∈ known ↔ q ∈ known') : Agree (start h known) (start h known') := by
  have hdepths : ∀ q : QuantityId, (start h known).depths[q]? = (start h known').depths[q]? := by
    intro q
    simp only [depths_start, hsame]
  have hs : Initial h (start h known) := initial_start
  have ht : Initial h (start h known') := initial_start
  refine ⟨hdepths, ?_, ?_, ?_, hs.timely, ht.timely⟩
  · rw [origins_start, origins_start]
  · rw [expanded_start, expanded_start]
  · refine Table.eq_of_pairwise Entry.before_asymm hs.ordered ht.ordered fun e ↦ ?_
    simp only [hs.waiting, ht.waiting, Std.TreeMap.mem_iff_isSome_getElem?, hdepths]

/-- **The order of the knowns does not matter**, nor how often each is given: lists of the same knowns lead to
the same outcome, whatever the source and the table of distances. -/
theorem find_eq_of_same_knowns (source : Source) (settings : SearchSettings) (table : DistanceTable)
    (target : QuantityId) (hsame : ∀ q, q ∈ known ↔ q ∈ known') :
    find source settings table known' target = find source settings table known target := by
  by_cases ht : target ∈ known
  · rw [find, find, if_pos ht, if_pos ((hsame target).mp ht)]
  · rw [find, find, if_neg ht, if_neg fun ht' ↦ ht ((hsame target).mpr ht')]
    cases heuristic source table target with
    | error cause => rfl
    | ok h => exact simulates_agree.run_eq (agree_start hsame) trivial

/-- From velocity, mass and time the force is derived in the same way, in whatever order they are given. -/
theorem same_knowns_force :
    (∀ q, q ∈ [5, 2, 4] ↔ q ∈ [4, 2, 5, 2, 4, 4]) ∧
      find Catalogue.mechanics.source {} .empty [5, 2, 4] 1 =
        .ok (.found [.find 1 "Use formula 2 to find quantity 3" 2 [5, 4] 3,
          .find 2 "Use formula 1 to find quantity 1" 1 [2, 3] 1] 2 4) ∧
      find Catalogue.mechanics.source {} .empty [4, 2, 5, 2, 4, 4] 1 =
        find Catalogue.mechanics.source {} .empty [5, 2, 4] 1 := by
  have hsame : ∀ q, q ∈ [5, 2, 4] ↔ q ∈ [4, 2, 5, 2, 4, 4] := by
    intro q
    simp only [List.mem_cons, List.not_mem_nil, or_false]
    tauto
  exact ⟨hsame, find_eq_of_runFor (n := 9) (by decide) rfl rfl,
    find_eq_of_same_knowns Catalogue.mechanics.source {} .empty 1 hsame⟩

end FormulaNet.Search

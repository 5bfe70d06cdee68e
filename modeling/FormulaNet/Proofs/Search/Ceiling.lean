import FormulaNet.Proofs.Search.Budget
import FormulaNet.Proofs.Search.Simulation

/-!
# How large the frontier gets

The frontier has a ceiling, and it is looked at after every offer that is accepted, but not when the knowns are
put in.  So a round either makes the frontier smaller or leaves it within the ceiling: knowns in excess of the
ceiling are only worn off, one round after the other, and an offer that leads above the ceiling ends the search.
The frontier stays within the ceiling throughout just where the knowns fit into it.  All this holds of every
source, whatever it answers, and of every table of distances.
-/

namespace FormulaNet

/-- A circle with radius, diameter, circumference and area, and its mass, of which nothing is said. -/
def Catalogue.circle : Catalogue :=
  let c := (empty.addQuantity "radius" "r" "m").2
  let c := (c.addQuantity "diameter" "d" "m").2
  let c := (c.addQuantity "circumference" "u" "m").2
  let c := (c.addQuantity "area" "A" "m^2").2
  let c := (c.addQuantity "mass" "m" "kg").2
  let c := (c.addFormula "diameter" "d = 2 * r" [1, 2] []).2
  let c := (c.addFormula "circumference" "u = 2 * pi * r" [1, 3] []).2
  (c.addFormula "area" "A = pi * r^2" [1, 4] []).2

namespace Search

variable {source : Source} {settings : SearchSettings} {h : Heuristic} {s t u : State}
variable {known : List QuantityId} {target : QuantityId} {maxFrontier n : Nat} {fs : List Formula}

/-! ## Offers without a ceiling -/

/-- The states after the offers that are accepted, as long as nothing limits the frontier. -/
def accepted (h : Heuristic) (s : State) : List Formula → List State
  | [] => []
  | f :: fs =>
    match offer? h s f with
    | none => accepted h s fs
    | some t => t :: accepted h t fs

/-- Formulas are offered until an accepted offer leads above the ceiling. -/
theorem offerAll_eq_find? :
    offerAll maxFrontier h s fs =
      match (accepted h s fs).find? (maxFrontier < ·.frontier.length) with
      | some t => .error t.frontier.length
      | none => .ok ((accepted h s fs).getLastD s) := by
  induction fs generalizing s with
  | nil => rfl
  | cons f fs ih =>
      unfold offerAll accepted
      cases offer? h s f with
      | none => exact ih
      | some t =>
          dsimp only
          by_cases hsize : maxFrontier < t.frontier.length
          · rw [if_pos hsize, List.find?_cons_of_pos (by simpa using hsize)]
          · rw [if_neg hsize, List.find?_cons_of_neg (by simpa using hsize), List.getLastD_cons, ih]

/-- An accepted offer above the ceiling ends the expansion, with a frontier above the ceiling. -/
theorem offerAll_eq_error_of_mem (ht : t ∈ accepted h s fs) (hsize : maxFrontier < t.frontier.length) :
    ∃ size, maxFrontier < size ∧ offerAll maxFrontier h s fs = .error size := by
  rw [offerAll_eq_find?]
  cases hfind : (accepted h s fs).find? (maxFrontier < ·.frontier.length) with
  | none =>
      have hnone := List.find?_eq_none.mp hfind t ht
      exact absurd (decide_eq_true hsize) hnone
  | some u =>
      have hlarge := List.find?_some hfind
      exact ⟨u.frontier.length, by simpa using hlarge, rfl⟩

/-- Where all offers have been made, none has been accepted or the frontier is within the ceiling. -/
theorem length_frontier_offerAll (ho : offerAll maxFrontier h s fs = .ok t) :
    t = s ∨ t.frontier.length ≤ maxFrontier := by
  rw [offerAll_eq_find?] at ho
  split at ho
  · cases ho
  · next hfind =>
    obtain rfl := Except.ok.inj ho
    cases haccepted : accepted h s fs with
    | nil => exact .inl rfl
    | cons u us =>
        have hmem : (u :: us).getLastD s ∈ accepted h s fs := by
          rw [haccepted, List.getLastD_cons]
          exact List.getLastD_mem_cons
        exact .inr (by simpa using List.find?_eq_none.mp hfind _ hmem)

/-! ## Rounds -/

/-- So many rounds lead from one state to another. -/
inductive Rounds (source : Source) (settings : SearchSettings) (h : Heuristic) (s : State) : Nat → State → Prop
  | none : Rounds source settings h s 0 s
  | more {n : Nat} {t u : State} :
      Rounds source settings h s n t → Round source settings h t u → Rounds source settings h s (n + 1) u

/-- A round makes the frontier smaller or leaves it within the ceiling. -/
theorem Round.length_frontier (hstep : Round source settings h s t) :
    t.frontier.length < s.frontier.length ∨ t.frontier.length ≤ settings.maxFrontier := by
  cases hstep with
  | skip hf _ =>
      rw [hf]
      exact .inl (Nat.lt_succ_self _)
  | expand hf _ _ _ _ ho =>
      rw [hf]
      rcases length_frontier_offerAll ho with rfl | hle
      · exact .inl (Nat.lt_succ_self _)
      · exact .inr hle

namespace Rounds

/-- What is above the ceiling at the start is worn off. -/
theorem length_frontier (hs : Rounds source settings h s n t) :
    t.frontier.length ≤ max settings.maxFrontier (s.frontier.length - n) := by
  induction hs with
  | none => exact Nat.le_max_right _ _
  | more _ hstep ih =>
      have := hstep.length_frontier
      omega

/-- The search goes on from there. -/
theorem run_eq (hs : Rounds source settings h s n t) : run source settings h s = run source settings h t := by
  induction hs with
  | none => rfl
  | more _ hstep ih => rw [ih, run_eq_round, hstep.round_eq]

end Rounds

/-- Each known waits once. -/
theorem length_frontier_start_eq : (start h known).frontier.length = known.eraseDups.length := by
  obtain ⟨ids, hnodup, hmem, hlength⟩ : ∃ ids : List QuantityId, ids.Nodup ∧
      (∀ q, q ∈ ids ↔ q ∈ (start h known).depths) ∧ (start h known).frontier.length = ids.length := by
    refine start_induction (P := fun s ↦ ∃ ids : List QuantityId, ids.Nodup ∧ (∀ q, q ∈ ids ↔ q ∈ s.depths) ∧
      s.frontier.length = ids.length) ⟨[], List.nodup_nil, by simp [State.empty], rfl⟩ ?_
    rintro s q _ hnew ⟨ids, hnodup, hmem, hlength⟩
    refine ⟨q :: ids, List.nodup_cons.mpr ⟨mt (hmem q).mp hnew, hnodup⟩, fun p ↦ ?_, ?_⟩
    · simp only [State.wait, List.mem_cons, hmem, Std.TreeMap.mem_insert, Nat.compare_eq_eq, @eq_comm _ p]
    · exact (length_push _ _).trans (congrArg (· + 1) hlength)
  have hperm : ids.Perm known.eraseDups :=
    (List.perm_ext_iff_of_nodup hnodup (Ids.nodup_eraseDups known)).mpr fun q ↦ by
      rw [hmem, Std.TreeMap.mem_iff_isSome_getElem?, depths_start, List.mem_eraseDups]
      split <;> simp_all
  rw [hlength, hperm.length_eq]

/-! ## The ceiling -/

/-- The next round expands the quantity in front, and these formulas are offered. -/
structure Offers (source : Source) (settings : SearchSettings) (h : Heuristic) (s : State) (e : Entry)
    (rest : List Entry) (fs : List Formula) : Prop where
  frontier : s.frontier = e :: rest
  live : isStale s e = false
  target : e.quantity ≠ h.target
  budget : s.expanded.length < settings.maxExpansions
  formulas : source.formulasReferencing e.quantity = .ok fs

/-- **The frontier stays within its ceiling just where the knowns fit into it.**  In any case it holds no more
than the ceiling or, if that is more, the distinct knowns less one for each round; and an accepted offer that
leads above the ceiling ends the search with the budget used up. -/
theorem frontier_within_iff (source : Source) (settings : SearchSettings) (table : DistanceTable)
    (known : List QuantityId) (target : QuantityId) (ht : target ∉ known) {h : Heuristic}
    (hh : heuristic source table target = .ok h) :
    ((∀ n s, Rounds source settings h (start h known) n s → s.frontier.length ≤ settings.maxFrontier) ↔
      known.eraseDups.length ≤ settings.maxFrontier) ∧
    (∀ n s, Rounds source settings h (start h known) n s →
      s.frontier.length ≤ max settings.maxFrontier (known.eraseDups.length - n)) ∧
    ∀ n s e rest fs t, Rounds source settings h (start h known) n s → Offers source settings h s e rest fs →
      t ∈ accepted h (s.expand e.quantity rest) fs → settings.maxFrontier < t.frontier.length →
      ∃ size, settings.maxFrontier < size ∧
        find source settings table known target = .ok (.budgetExceeded (s.expanded.length + 1) size) := by
  have hbound : ∀ n s, Rounds source settings h (start h known) n s →
      s.frontier.length ≤ max settings.maxFrontier (known.eraseDups.length - n) := by
    intro n s hs
    rw [← length_frontier_start_eq (h := h)]
    exact hs.length_frontier
  refine ⟨⟨fun hall ↦ ?_, fun hfit n s hs ↦ ?_⟩, hbound, ?_⟩
  · rw [← length_frontier_start_eq (h := h)]
    exact hall 0 _ .none
  · have := hbound n s hs
    omega
  · intro n s e rest fs t hs hoffers hmem hsize
    obtain ⟨size, hlt, ho⟩ := offerAll_eq_error_of_mem hmem hsize
    refine ⟨size, hlt, ?_⟩
    have hround : round source settings h s = .inl (.ok (.budgetExceeded (s.expanded.length + 1) size)) := by
      rw [round_of_other hoffers.frontier hoffers.live hoffers.target]
      simp only [expansion, Nat.not_le.mpr hoffers.budget, hoffers.formulas, ho, ↓reduceIte]
    rw [find, if_neg ht, hh]
    exact hs.run_eq.trans (by rw [run_eq_round, hround])

/-- From the radius of a circle three quantities follow at once, but only two may wait. -/
theorem within_circle :
    5 ∉ [1] ∧ [1].eraseDups.length ≤ 2 ∧
      ∃ h, heuristic Catalogue.circle.source .empty 5 = .ok h ∧
        (∀ n s, Rounds Catalogue.circle.source ⟨10, 2⟩ h (start h [1]) n s → s.frontier.length ≤ 2) ∧
        (∃ e rest fs t, Offers Catalogue.circle.source ⟨10, 2⟩ h (start h [1]) e rest fs ∧
          t ∈ accepted h ((start h [1]).expand e.quantity rest) fs ∧ 2 < t.frontier.length) ∧
        ∃ size, 2 < size ∧
          find Catalogue.circle.source ⟨10, 2⟩ .empty [1] 5 = .ok (.budgetExceeded 1 size) := by
  have ht : 5 ∉ [1] := by decide
  have hfit : [1].eraseDups.length ≤ 2 := by decide
  have hh : heuristic Catalogue.circle.source .empty 5 = .ok ⟨.empty, 5, []⟩ := rfl
  obtain ⟨hwithin, -, hends⟩ := frontier_within_iff Catalogue.circle.source ⟨10, 2⟩ .empty [1] 5 ht hh
  have hoffers : Offers Catalogue.circle.source ⟨10, 2⟩ ⟨.empty, 5, []⟩ (start ⟨.empty, 5, []⟩ [1])
      ⟨1, 0, .unreachable, 0⟩ [] (Catalogue.circle.formulasReferencing 1) :=
    ⟨rfl, rfl, by decide, by decide, rfl⟩
  obtain ⟨t, hmem, hsize⟩ : ∃ t ∈ accepted ⟨.empty, 5, []⟩ ((start ⟨.empty, 5, []⟩ [1]).expand 1 [])
      (Catalogue.circle.formulasReferencing 1), 2 < t.frontier.length :=
    ⟨_, .tail _ (.tail _ (.head _)), by decide⟩
  exact ⟨ht, hfit, _, hh, hwithin.mpr hfit, ⟨_, _, _, t, hoffers, hmem, hsize⟩,
    hends 0 _ _ _ _ t .none hoffers hmem hsize⟩

/-- With a ceiling of one entry both mass and acceleration wait at the start, and the force is found. -/
theorem above_ceiling_force :
    1 ∉ [2, 3] ∧ heuristic Catalogue.mechanics.source .empty 1 = .ok ⟨.empty, 1, [2, 3]⟩ ∧
      Rounds Catalogue.mechanics.source ⟨10, 1⟩ ⟨.empty, 1, [2, 3]⟩ (start ⟨.empty, 1, [2, 3]⟩ [2, 3]) 0
        (start ⟨.empty, 1, [2, 3]⟩ [2, 3]) ∧
      ¬ (start ⟨.empty, 1, [2, 3]⟩ [2, 3]).frontier.length ≤ 1 ∧
      find Catalogue.mechanics.source ⟨10, 1⟩ .empty [2, 3] 1 =
        .ok (.found [.find 1 "Use formula 1 to find quantity 1" 1 [2, 3] 1] 1 2) :=
  ⟨by decide, rfl, .none, by decide, find_eq_of_runFor (n := 4) (by decide) rfl rfl⟩

end Search

end FormulaNet

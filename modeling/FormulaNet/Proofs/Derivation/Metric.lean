import FormulaNet.Proofs.Derivation.Distance

/-!
# Distances are a metric

Distances in the formula graph behave like distances: they are the same in both directions, and a detour is
never shorter.  They belong to the graph and not to the way it was gone through, so that a table does not
depend on the order in which quantities, formulas or neighbours come.
-/

namespace FormulaNet

variable {quantities quantities' : List Quantity} {formulas formulas' : List Formula}
variable {a b c : QuantityId} {m n : Nat}

/-- The quantity is listed, or some formula relates it to others. -/
def Mentioned (quantities : List Quantity) (formulas : List Formula) (a : QuantityId) : Prop :=
  (∃ q ∈ quantities, q.id = a) ∨ ∃ f ∈ formulas, a ∈ f.quantities

/-- Distances that agree on all numbers of hops are the same. -/
theorem Distance.eq_of_hops_iff {d e : Distance} (h : ∀ n, d = .hops n ↔ e = .hops n) : d = e := by
  cases d with
  | hops n => exact ((h n).mp rfl).symm
  | unreachable =>
      cases e with
      | hops n => exact absurd ((h n).mpr rfl) (by simp)
      | unreachable => rfl

theorem Distance.eq_unreachable_iff {d : Distance} : d = .unreachable ↔ ∀ n, d ≠ .hops n := by
  cases d <;> simp

namespace Way

theorem append (h : Way formulas a b m) (h' : Way formulas b c n) : Way formulas a c (m + n) := by
  induction h' with
  | nil => exact h
  | hop _ hbc ih => exact .hop ih hbc

/-- A way does not leave the graph. -/
theorem mentioned (h : Way formulas a b n) (ha : Mentioned quantities formulas a) :
    Mentioned quantities formulas b := by
  cases h with
  | nil => exact ha
  | hop _ hrel =>
      obtain ⟨f, hf, -, hb⟩ := hrel
      exact .inr ⟨f, hf, hb⟩

theorem mono (h : Way formulas a b n) (hsub : ∀ f ∈ formulas, f ∈ formulas') : Way formulas' a b n := by
  induction h with
  | nil => exact .nil
  | hop _ hrel ih =>
      obtain ⟨f, hf, hmem⟩ := hrel
      exact .hop ih ⟨f, hsub f hf, hmem⟩

end Way

/-- Only which formulas there are matters. -/
theorem Apart.congr (h : Apart formulas a b n) (hf : ∀ f, f ∈ formulas ↔ f ∈ formulas') :
    Apart formulas' a b n :=
  ⟨h.1.mono fun f ↦ (hf f).mp, fun _ hm ↦ h.2 (Way.mono hm fun f ↦ (hf f).mpr)⟩

theorem Mentioned.congr (h : Mentioned quantities formulas a) (hq : ∀ q, q ∈ quantities ↔ q ∈ quantities')
    (hf : ∀ f, f ∈ formulas ↔ f ∈ formulas') : Mentioned quantities' formulas' a :=
  h.imp (fun ⟨q, hmem, hid⟩ ↦ ⟨q, (hq q).mp hmem, hid⟩) fun ⟨f, hmem, ha⟩ ↦ ⟨f, (hf f).mp hmem, ha⟩

namespace DistanceTable

variable {ns : Neighbours}

/-! ## The laws of distances -/

theorem distance_eq_hops_iff :
    (build quantities formulas).distance a b = .hops n ↔
      Mentioned quantities formulas a ∧ Apart formulas a b n := by
  rw [distance_build, mem_neighbours_iff, Mentioned]

theorem distance_eq_unreachable_iff :
    (build quantities formulas).distance a b = .unreachable ↔
      ¬ (Mentioned quantities formulas a ∧ ∃ n, Way formulas a b n) := by
  rw [Distance.eq_unreachable_iff]
  simp only [ne_eq, distance_eq_hops_iff, not_and, not_exists]
  constructor
  · intro h ha n hway
    obtain ⟨m, -, hapart⟩ := hway.exists_apart
    exact h m ha hapart
  · exact fun h n ha hapart ↦ h ha n hapart.1

theorem distance_comm :
    (build quantities formulas).distance a b = (build quantities formulas).distance b a := by
  have half : ∀ {a b n}, (build quantities formulas).distance a b = .hops n →
      (build quantities formulas).distance b a = .hops n := by
    intro a b n h
    obtain ⟨ha, hapart⟩ := distance_eq_hops_iff.mp h
    exact distance_eq_hops_iff.mpr ⟨hapart.1.mentioned ha, hapart.symm⟩
  exact Distance.eq_of_hops_iff fun _ ↦ ⟨half, half⟩

/-- A detour is never shorter. -/
theorem distance_le_after (h : (build quantities formulas).distance a b = .hops m) :
    (build quantities formulas).distance a c ≤ ((build quantities formulas).distance b c).after m := by
  cases hbc : (build quantities formulas).distance b c with
  | unreachable => exact Distance.le_unreachable _
  | hops n =>
      obtain ⟨ha, hab⟩ := distance_eq_hops_iff.mp h
      obtain ⟨-, hbc⟩ := distance_eq_hops_iff.mp hbc
      obtain ⟨k, hk, hac⟩ := (hab.1.append hbc.1).exists_apart
      rw [distance_eq_hops_iff.mpr ⟨ha, hac⟩]
      exact Distance.hops_le_hops.mpr hk

/-- Neither order nor repetition matters, among the quantities or among the formulas. -/
theorem distance_congr (hq : ∀ q, q ∈ quantities ↔ q ∈ quantities')
    (hf : ∀ f, f ∈ formulas ↔ f ∈ formulas') :
    (build quantities formulas).distance a b = (build quantities' formulas').distance a b := by
  refine Distance.eq_of_hops_iff fun n ↦ ?_
  rw [distance_eq_hops_iff, distance_eq_hops_iff]
  constructor
  · exact fun ⟨ha, hapart⟩ ↦ ⟨ha.congr hq hf, hapart.congr hf⟩
  · exact fun ⟨ha, hapart⟩ ↦
      ⟨ha.congr (fun q ↦ (hq q).symm) fun f ↦ (hf f).symm, hapart.congr fun f ↦ (hf f).symm⟩

/-! ## The order of the search -/

/-- The table of a graph that is given by its neighbours, row by row in the order of a list. -/
def ofNeighbours (ns : Neighbours) (order : List QuantityId) (formulaCount : Nat) : DistanceTable where
  rows := order.foldl (fun rows id => rows.insert id (row ns id)) ∅
  formulaCount := formulaCount

theorem build_eq_ofNeighbours :
    build quantities formulas =
      ofNeighbours (neighbours quantities formulas) (neighbours quantities formulas).keys formulas.length :=
  rfl

/-- The same quantities have the same neighbours, in whatever order and however often. -/
structure Neighbours.Same (ns ns' : Neighbours) : Prop where
  vertices : ∀ a, a ∈ ns ↔ a ∈ ns'
  adjacent : ∀ a b, b ∈ ns.getD a [] ↔ b ∈ ns'.getD a []

theorem Neighbours.Same.of (h : ns.Same (neighbours quantities formulas)) : ns.Of formulas where
  adjacent a b := (h.adjacent a b).trans mem_neighbours
  vertices a b hrel := (h.vertices b).mpr (neighbours_of.vertices a b hrel)

/-- The search may go through quantities and neighbours in any order. -/
theorem distance_ofNeighbours {order : List QuantityId} {k : Nat}
    (hns : ns.Same (neighbours quantities formulas)) (horder : ∀ a, a ∈ order ↔ a ∈ ns) :
    (ofNeighbours ns order k).distance a b = (build quantities formulas).distance a b := by
  have hrow : (ofNeighbours ns order k).rows[a]? = if a ∈ order then some (row ns a) else none := by
    simp [ofNeighbours, Table.getElem?_foldl_insert]
  refine Distance.eq_of_hops_iff fun n ↦ ?_
  rw [distance_build, ← hns.vertices, distance, hrow]
  by_cases ha : a ∈ ns
  · rw [if_pos ((horder a).mpr ha), Option.bind_some, ← getElem?_row hns.of ha]
    cases (row ns a)[b]? <;> simp [ha]
  · rw [if_neg (mt (horder a).mp ha)]
    simp [ha]

/-! ## What a table measures -/

/-- The distances of a table are the lengths of shortest ways. -/
structure Measures (t : DistanceTable) (quantities : List Quantity) (formulas : List Formula) : Prop where
  hops_iff : ∀ a b n, t.distance a b = .hops n ↔ Mentioned quantities formulas a ∧ Apart formulas a b n
  /-- What is not mentioned is out of reach, even from itself. -/
  unreachable_iff : ∀ a b, t.distance a b = .unreachable ↔
    ¬ (Mentioned quantities formulas a ∧ ∃ n, Way formulas a b n)
  comm : ∀ a b, t.distance a b = t.distance b a
  triangle : ∀ a b c m, t.distance a b = .hops m → t.distance a c ≤ (t.distance b c).after m

/-- **Distances are lengths of shortest ways**, in both directions the same and never shorter by a detour.
They depend on which quantities and formulas there are, and neither on the order of these nor on the order
in which the search goes through the quantities and their neighbours. -/
theorem build_measures (quantities : List Quantity) (formulas : List Formula) :
    (build quantities formulas).Measures quantities formulas ∧
      (∀ quantities' formulas', (∀ q, q ∈ quantities' ↔ q ∈ quantities) →
        (∀ f, f ∈ formulas' ↔ f ∈ formulas) → ∀ a b,
          (build quantities' formulas').distance a b = (build quantities formulas).distance a b) ∧
      build quantities formulas =
        ofNeighbours (neighbours quantities formulas) (neighbours quantities formulas).keys formulas.length ∧
      (∀ ns order, Neighbours.Same ns (neighbours quantities formulas) → (∀ a, a ∈ order ↔ a ∈ ns) →
        ∀ a b, (ofNeighbours ns order formulas.length).distance a b =
          (build quantities formulas).distance a b) := by
  refine ⟨?_, ?_, build_eq_ofNeighbours, ?_⟩
  · exact {
      hops_iff _ _ _ := distance_eq_hops_iff
      unreachable_iff _ _ := distance_eq_unreachable_iff
      comm _ _ := distance_comm
      triangle _ _ _ _ := distance_le_after }
  · exact fun _ _ hq hf _ _ ↦ distance_congr hq hf
  · exact fun _ _ hns horder _ _ ↦ distance_ofNeighbours hns horder

/-- Two formulas that share a quantity, none of which is listed, are crossed in two hops. -/
example : (build [] [⟨1, "second law", "F = m * a", [1, 2, 3], []⟩,
    ⟨2, "steady speeding up", "a = v / t", [3, 5, 4], []⟩]).distance 1 5 = .hops 2 := by
  decide

end DistanceTable

end FormulaNet

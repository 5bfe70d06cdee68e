import FormulaNet.Proofs.Derivation.Metric
import Mathlib.Computability.StateTransition

/-!
# Distances with a queue

The distances from a quantity can be found without rounds.  The quantity at the front of a queue is taken, and
those of its neighbours that have no distance yet get one hop more than it has and go to the end of the queue.

The front of the queue holds what is left of one round of `rounds`, and behind it stands what has been entered
for the next one.  `reaches_round` takes a whole round from the front, whatever stands behind it; by
`Filled.reaches_rounds` the queue is empty after the last one, and `sweep_eq` says that the search ends with
the very table that `row` fills.  The order of the neighbours is left open.
-/

namespace FormulaNet.DistanceTable

/-- How far the search has got. -/
structure Sweep where
  found : Std.TreeMap QuantityId Nat
  queue : List QuantityId

namespace Sweep

def start (id : QuantityId) : Sweep := ⟨(∅ : Std.TreeMap QuantityId Nat).insert id 0, [id]⟩

/-- Deals with a neighbour of the quantity that has been taken from the queue. -/
def visit (hops : Nat) (s : Sweep) (id : QuantityId) : Sweep :=
  if id ∈ s.found then s else ⟨s.found.insert id hops, s.queue ++ [id]⟩

/-- Takes the quantity at the front of the queue.  There is none in an empty queue; one without a distance
would stop the search as well. -/
def next? (ns : Neighbours) (s : Sweep) : Option Sweep :=
  match s.queue with
  | [] => none
  | id :: queue =>
    s.found[id]?.map fun hops ↦ (ns.getD id []).foldl (visit (hops + 1)) { s with queue }

end Sweep

/-- The distances from a quantity.  They are defined if the search empties its queue. -/
def sweep (ns : Neighbours) (id : QuantityId) : Part (Std.TreeMap QuantityId Nat) :=
  (StateTransition.eval (Sweep.next? ns) (.start id)).bind fun s ↦
    .assert (s.queue = []) fun _ ↦ .some s.found

variable {ns : Neighbours} {quantities : List Quantity} {formulas : List Formula} {a b id : QuantityId}
variable {k n : Nat} {found : Std.TreeMap QuantityId Nat} {last ids queue : List QuantityId}

/-! ## The quantity at the front -/

/-- Candidates may be entered in two parts. -/
theorem enter_append (ids ids' : List QuantityId) (found : Std.TreeMap QuantityId Nat) :
    enter k (ids ++ ids') found =
      ((enter k ids' (enter k ids found).1).1,
        (enter k ids found).2 ++ (enter k ids' (enter k ids found).1).2) := by
  induction ids generalizing found with
  | nil => rfl
  | cons id ids ih =>
      rw [List.cons_append, enter, enter]
      split
      · exact ih found
      · rw [ih]
        rfl

/-- A distance that is there stays. -/
theorem getElem?_enter_of_eq_some (h : found[b]? = some n) (ids : List QuantityId) :
    (enter k ids found).1[b]? = some n := by
  rw [getElem?_enter rfl, if_pos (Table.mem_of_eq_some h), h]

namespace Sweep

/-- The neighbours without a distance are entered, and go to the end of the queue in the same order. -/
theorem foldl_visit :
    ids.foldl (visit k) ⟨found, queue⟩ = ⟨(enter k ids found).1, queue ++ (enter k ids found).2⟩ := by
  induction ids generalizing found queue with
  | nil => simp [enter]
  | cons id ids ih =>
      rw [List.foldl_cons, visit, enter]
      split
      · exact ih
      · rw [ih]
        simp

theorem next?_cons (h : found[id]? = some k) :
    next? ns ⟨found, id :: queue⟩ =
      some ⟨(enter (k + 1) (ns.getD id []) found).1, queue ++ (enter (k + 1) (ns.getD id []) found).2⟩ := by
  simp only [next?, h, Option.map_some, foldl_visit]

/-- The quantities at one distance are taken from the front, and those that they lead to stand behind the
others in the end. -/
theorem reaches_round (ns : Neighbours) (h : ∀ id ∈ last, found[id]? = some k) (behind : List QuantityId) :
    StateTransition.Reaches (next? ns) ⟨found, last ++ behind⟩
      ⟨(enter (k + 1) (last.flatMap (ns.getD · [])) found).1,
        behind ++ (enter (k + 1) (last.flatMap (ns.getD · [])) found).2⟩ := by
  induction last generalizing found behind with
  | nil =>
      rw [List.flatMap_nil, enter, List.append_nil]
      exact .refl
  | cons id last ih =>
      have hkept : ∀ b ∈ last, (enter (k + 1) (ns.getD id []) found).1[b]? = some k :=
        fun b hb ↦ getElem?_enter_of_eq_some (h b (List.mem_cons_of_mem id hb)) _
      have hrest := ih hkept (behind ++ (enter (k + 1) (ns.getD id []) found).2)
      rw [← List.append_assoc, List.append_assoc behind] at hrest
      rw [List.flatMap_cons, enter_append]
      exact .head (next?_cons (h id List.mem_cons_self)) hrest

end Sweep

/-! ## Round by round -/

/-- The quantities reached last have their distance. -/
theorem Filled.getElem?_last (h : Filled ns formulas a k last found) (hb : b ∈ last) : found[b]? = some k :=
  (h.found_iff b k).mpr ⟨(h.last_iff b).mp hb, Nat.le_refl k⟩

/-- From the quantities reached last the queue runs empty, with what the rounds find. -/
theorem Filled.reaches_rounds (hns : ns.Of formulas) (h : Filled ns formulas a k last found) {fuel : Nat}
    (hfuel : ns.size < fuel + found.size) :
    StateTransition.Reaches (Sweep.next? ns) ⟨found, last⟩ ⟨rounds ns fuel k last found, []⟩ := by
  induction fuel generalizing k last found with
  | zero =>
      have := Table.size_le_size h.vertices
      omega
  | succ fuel ih =>
      have hround := Sweep.reaches_round ns (fun id hid ↦ h.getElem?_last hid) []
      rw [List.append_nil, List.nil_append] at hround
      unfold rounds
      split
      · next found' he =>
        rwa [he] at hround
      · next found' new hne he =>
        simp only [he] at hround
        refine hround.trans (ih (h.enter hns he) ?_)
        have := size_lt_of_enter he hne
        omega

/-- **The search with a queue fills the same row**, for every order of the neighbours. -/
theorem sweep_eq (hns : ns.Of formulas) (ha : a ∈ ns) : sweep ns a = .some (row ns a) := by
  have hreaches : StateTransition.Reaches (Sweep.next? ns) (.start a) ⟨row ns a, []⟩ :=
    (filled_start ha).reaches_rounds hns (size_lt_start ns a)
  have hend : ⟨row ns a, []⟩ ∈ StateTransition.eval (Sweep.next? ns) (.start a) :=
    StateTransition.mem_eval.mpr ⟨hreaches, rfl⟩
  refine Part.eq_some_iff.mpr (Part.mem_bind hend ?_)
  exact Part.mem_assert rfl (Part.mem_some _)

/-- Whatever order it meets the neighbours in, the search with a queue finds the distances of the table. -/
theorem exists_mem_sweep (hns : ns.Same (neighbours quantities formulas))
    (ha : Mentioned quantities formulas a) :
    ∃ found ∈ sweep ns a, ∀ b n, found[b]? = some n ↔ (build quantities formulas).distance a b = .hops n := by
  have hmem : a ∈ ns := (hns.vertices a).mpr (mem_neighbours_iff.mpr ha)
  refine ⟨row ns a, Part.eq_some_iff.mp (sweep_eq hns.of hmem), fun b n ↦ ?_⟩
  rw [getElem?_row hns.of hmem, distance_eq_hops_iff, and_iff_right ha]

end FormulaNet.DistanceTable

import FormulaNet.Knowledge.Basic
import Std.Data.TreeMap

/-!
# Distances in the formula graph

Two quantities are neighbours if some formula relates both.  The distance of two quantities is the number
of hops from neighbour to neighbour, and bounds from below the number of formulas that have to be applied
to get from the one to the other.  A table of all distances is computed once, by one search in rounds from
every quantity.
-/

namespace FormulaNet

/-- A number of hops, or no way at all. -/
inductive Distance where
  | hops (n : Nat)
  | unreachable
  deriving DecidableEq, Repr

namespace Distance

/-- Not farther. -/
def le : Distance → Distance → Bool
  | hops m, hops n => m ≤ n
  | _, unreachable => true
  | unreachable, hops _ => false

instance : LE Distance := ⟨fun a b => a.le b = true⟩

instance (a b : Distance) : Decidable (a ≤ b) := inferInstanceAs (Decidable (a.le b = true))

/-- The distance after some steps more. -/
def after (steps : Nat) : Distance → Distance
  | hops n => hops (steps + n)
  | unreachable => unreachable

/-- The distance as a cost. -/
def cost : Distance → Float
  | hops n => Float.ofNat n
  | unreachable => 1 / 0

@[simp] theorem hops_le_hops {m n : Nat} : hops m ≤ hops n ↔ m ≤ n := decide_eq_true_iff
@[simp] theorem le_unreachable (a : Distance) : a ≤ unreachable := by cases a <;> rfl
@[simp] theorem not_unreachable_le_hops {n : Nat} : ¬ unreachable ≤ hops n := Bool.false_ne_true
@[simp] theorem after_hops (k n : Nat) : (hops n).after k = hops (k + n) := rfl
@[simp] theorem after_unreachable (k : Nat) : unreachable.after k = unreachable := rfl

end Distance

/-- Distances from quantity to quantity. -/
structure DistanceTable where
  /-- For every quantity of the graph the quantities that can be reached, with the number of hops. -/
  rows : Std.TreeMap QuantityId (Std.TreeMap QuantityId Nat) := ∅
  formulaCount : Nat := 0

namespace DistanceTable

def empty : DistanceTable where

/-- The neighbours of each quantity. -/
abbrev Neighbours := Std.TreeMap QuantityId (List QuantityId)

/-- Makes the quantities of a formula neighbours of each other. -/
def addFormula (neighbours : Neighbours) (f : Formula) : Neighbours :=
  f.quantities.foldl (fun neighbours a =>
    neighbours.insert a (f.quantities.filter (· ≠ a) ++ neighbours.getD a [])) neighbours

/-- The neighbours in a graph.  A quantity that only formulas mention is part of it too. -/
def neighbours (quantities : List Quantity) (formulas : List Formula) : Neighbours :=
  formulas.foldl addFormula (quantities.foldl (fun ns q => ns.insert q.id []) ∅)

/-- Enters the candidates that have no distance yet; returns them as well. -/
def enter (hops : Nat) : List QuantityId → Std.TreeMap QuantityId Nat →
    Std.TreeMap QuantityId Nat × List QuantityId
  | [], found => (found, [])
  | id :: ids, found =>
    if id ∈ found then enter hops ids found
    else
      let (found, new) := enter hops ids (found.insert id hops)
      (found, id :: new)

/-- Goes on for some rounds from the quantities reached last, which are `hops` away. -/
def rounds (ns : Neighbours) : Nat → Nat → List QuantityId → Std.TreeMap QuantityId Nat →
    Std.TreeMap QuantityId Nat
  | 0, _, _, found => found
  | n + 1, hops, last, found =>
    match enter (hops + 1) (last.flatMap (ns.getD · [])) found with
    | (found, []) => found
    | (found, new) => rounds ns n (hops + 1) new found

/-- The quantities that can be reached from one.  No way without detours has more hops than there are
quantities. -/
def row (ns : Neighbours) (id : QuantityId) : Std.TreeMap QuantityId Nat :=
  rounds ns ns.size 0 [id] ((∅ : Std.TreeMap QuantityId Nat).insert id 0)

def build (quantities : List Quantity) (formulas : List Formula) : DistanceTable :=
  let ns := neighbours quantities formulas
  { rows := ns.keys.foldl (fun rows id => rows.insert id (row ns id)) ∅
    formulaCount := formulas.length }

/-- The distance of two quantities; one that is not in the graph is out of reach, even from itself. -/
def distance (t : DistanceTable) (a b : QuantityId) : Distance :=
  match t.rows[a]?.bind (·[b]?) with
  | some n => .hops n
  | none => .unreachable

def contains (t : DistanceTable) (id : QuantityId) : Bool := t.rows.contains id

/-- The quantities that can be reached from one, by ascending id. -/
def reachable (t : DistanceTable) (id : QuantityId) : List (QuantityId × Nat) :=
  (t.rows[id]?.map (·.toList)).getD []

def quantityCount (t : DistanceTable) : Nat := t.rows.size

end DistanceTable

end FormulaNet

import FormulaNet.Proofs.Derivation.Distance
import FormulaNet.Proofs.Search.Run

/-!
# The estimate is consistent

With the table of the graph itself the estimate of a quantity is its distance from the target, and no
formula bridges more than one hop: among the quantities that a formula relates, the estimates differ by one
at most.  This is all that the search needs of its estimate.
-/

namespace FormulaNet

namespace Distance

variable {a b c : Distance}

@[simp] protected theorem le_refl (a : Distance) : a ≤ a := by cases a <;> simp

protected theorem le_trans (hab : a ≤ b) (hbc : b ≤ c) : a ≤ c := by
  cases a <;> cases b <;> cases c <;> simp_all
  exact Nat.le_trans hab hbc

/-- Of two distances one is not farther than the other. -/
theorem le_of_not_le (h : ¬ a ≤ b) : b ≤ a := by
  cases a <;> cases b <;> simp_all
  exact Nat.le_of_lt h

protected theorem le_antisymm (hab : a ≤ b) (hba : b ≤ a) : a = b := by
  cases a <;> cases b <;> simp_all
  exact Nat.le_antisymm hab hba

/-- Steps more do not change what is farther. -/
theorem after_le_after (k : Nat) (h : a ≤ b) : a.after k ≤ b.after k := by
  cases a <;> cases b <;> simp_all

@[simp] theorem after_after (j k : Nat) : (a.after j).after k = a.after (k + j) := by
  cases a <;> simp [Nat.add_assoc]

/-- More steps lead no less far. -/
theorem after_mono {j k : Nat} (h : j ≤ k) : a.after j ≤ a.after k := by
  cases a <;> simp [h]

end Distance

namespace Search

variable {source : Source} {h : Heuristic} {formulas : List Formula} {quantities : List Quantity}
variable {a b target : QuantityId} {n : Nat}

theorem mem_near (hsource : source.Lists formulas) {table : DistanceTable}
    (hh : heuristic source table target = .ok h) : a ∈ h.near ↔ a ≠ target ∧ Related formulas a target := by
  obtain ⟨fs, hfs, rfl⟩ := heuristic_eq_ok_iff.mp hh
  obtain ⟨fs', hfs', hmem⟩ := hsource.referencing target
  obtain rfl : fs = fs' := Except.ok.inj (hfs.symm.trans hfs')
  simp only [List.mem_filter, List.mem_flatMap, decide_eq_true_eq, hmem, Related]
  tauto

/-- The estimate of a quantity is its distance from the target. -/
theorem estimate_eq_hops (hsource : source.Lists formulas)
    (hh : heuristic source (.build quantities formulas) target = .ok h) :
    h.estimate a = .hops n ↔
      (a = target ∨ a ∈ DistanceTable.neighbours quantities formulas) ∧ Apart formulas a target n := by
  have htarget : h.target = target := by
    obtain ⟨fs, -, rfl⟩ := heuristic_eq_ok_iff.mp hh
    rfl
  have htable : h.table = .build quantities formulas := by
    obtain ⟨fs, -, rfl⟩ := heuristic_eq_ok_iff.mp hh
    rfl
  rw [Heuristic.estimate, htarget, htable]
  split
  · next ha =>
    subst ha
    constructor
    · intro hn
      cases hn
      exact ⟨.inl rfl, .self a⟩
    · rintro ⟨-, hn⟩
      rw [hn.unique (.self a)]
  · next ha =>
    split
    · next hnear =>
      obtain ⟨-, hrel⟩ := (mem_near hsource hh).mp hnear
      obtain ⟨f, hf, haf, -⟩ := id hrel
      have hvertex : a ∈ DistanceTable.neighbours quantities formulas :=
        DistanceTable.mem_neighbours_iff.mpr (.inr ⟨f, hf, haf⟩)
      have hapart : Apart formulas a target 1 := by
        refine ⟨.hop .nil hrel, fun m hm ↦ ?_⟩
        cases hm with
        | nil => exact absurd rfl ha
        | hop => omega
      constructor
      · intro hn
        cases hn
        exact ⟨.inr hvertex, hapart⟩
      · rintro ⟨-, hn⟩
        rw [hn.unique hapart]
    · rw [DistanceTable.distance_build]
      tauto

/-- **The estimate is consistent**: from one quantity of a formula to another it changes by one hop at
most. -/
theorem estimate_le_after (hsource : source.Lists formulas)
    (hh : heuristic source (.build quantities formulas) target = .ok h) (hab : Related formulas a b) :
    h.estimate a ≤ (h.estimate b).after 1 := by
  cases hb : h.estimate b with
  | unreachable => simp
  | hops n =>
      obtain ⟨-, hn⟩ := (estimate_eq_hops hsource hh).mp hb
      obtain ⟨m, hm, hapart⟩ := (hn.1.after hab).exists_apart
      obtain ⟨f, hf, haf, -⟩ := hab
      have ha : h.estimate a = .hops m := (estimate_eq_hops hsource hh).mpr
        ⟨.inr (DistanceTable.mem_neighbours_iff.mpr (.inr ⟨f, hf, haf⟩)), hapart⟩
      rw [ha, Distance.after_hops, Distance.hops_le_hops]
      omega

end Search

end FormulaNet

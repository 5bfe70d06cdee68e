import FormulaNet.Proofs.Rearrangement.Solver

/-!
# What solving a formula reads and writes

Solving a formula for a target reads the values of its other quantities and nothing else of the table: neither
a value that the target has already, nor those of quantities outside the formula.  It writes the value of the
target, which is finite, and nothing else; and nothing at all if there is no such value.
-/

namespace FormulaNet.Solver

variable {ν : Type} {f : LoadedFormula ν} {target : Quantity} {values values' : ValueTable ν}

/-- The tables have the same values, or lack them alike, for the quantities of the formula other than the
target. -/
def Agree (f : LoadedFormula ν) (target : QuantityId) (values values' : ValueTable ν) : Prop :=
  ∀ q ∈ f.quantities, q.id ≠ target → values[q.id]? = values'[q.id]?

/-- What is bound, or which value is missed first, depends on the other quantities alone.  Several of them may
have one symbol in plain notation; the last one is in front whatever the table. -/
theorem bindInputs_congr {id : QuantityId} {qs : List Quantity} {env : Bindings ν}
    (h : ∀ q ∈ qs, q.id ≠ id → values[q.id]? = values'[q.id]?) :
    bindInputs id values qs env = bindInputs id values' qs env := by
  induction qs generalizing env with
  | nil => rfl
  | cons q qs ih =>
      obtain ⟨hq, hqs⟩ := List.forall_mem_cons.mp h
      by_cases hid : q.id = id
      · rw [bindInputs, bindInputs, if_pos hid, if_pos hid, ih hqs]
      · rw [bindInputs, bindInputs, if_neg hid, if_neg hid, hq hid]
        cases values'[q.id]? with
        | none => rfl
        | some x => exact ih hqs

section

variable [Scalar ν] {chain : List (Strategy ν)} {v : ν}

/-- So does the value of the target, or the error in its place. -/
theorem targetValue_congr (h : Agree f target.id values values') :
    targetValue chain f target values = targetValue chain f target values' := by
  rw [targetValue, targetValue, bindInputs_congr h]

/-- A value of the target is finite, for the last thing that the solver asks is whether it is. -/
theorem isFinite_of_targetValue (h : targetValue chain f target values = .ok v) :
    Scalar.isFinite v = true := by
  obtain ⟨-, _, -, _, -, hvalue⟩ := targetValue_eq_ok_iff.mp h
  exact (Expr.value_eq_ok_iff.mp hvalue).2

theorem solve_of_error {e : Error} (h : targetValue chain f target values = .error e) :
    solve chain f target values = (.error e, values) := by
  rw [solve, h]

theorem solve_of_ok (h : targetValue chain f target values = .ok v) :
    solve chain f target values = (.ok v, values.insert target.id v) := by
  rw [solve, h]

end

/-- **Solving reads the inputs and writes the target.**  An error leaves the table as it is.  A value is
finite, and the table has it for the target and is otherwise as before.  Tables that agree on the other
quantities of the formula lead to the same value or the same error. -/
theorem solve_frame [Scalar ν] (chain : List (Strategy ν)) (f : LoadedFormula ν) (target : Quantity)
    (values : ValueTable ν) :
    (∀ e, (solve chain f target values).1 = .error e → (solve chain f target values).2 = values) ∧
      (∀ v, (solve chain f target values).1 = .ok v → Scalar.isFinite v = true ∧
        (solve chain f target values).2[target.id]? = some v ∧
          ∀ i, i ≠ target.id → (solve chain f target values).2[i]? = values[i]?) ∧
      ∀ values', Agree f target.id values values' →
        (solve chain f target values').1 = (solve chain f target values).1 := by
  refine ⟨fun e he ↦ ?_, fun v hv ↦ ?_, fun values' hagree ↦ ?_⟩
  · rw [solve_fst] at he
    rw [solve_of_error he]
  · rw [solve_fst] at hv
    rw [solve_of_ok hv]
    refine ⟨isFinite_of_targetValue hv, Std.TreeMap.getElem?_insert_self, fun i hi ↦ ?_⟩
    rw [Std.TreeMap.getElem?_insert, if_neg]
    rw [Nat.compare_eq_eq]
    exact Ne.symm hi
  · rw [solve_fst, solve_fst, targetValue_congr hagree]

/-- The time does not depend on the value that the table has for it, nor on that of an eighth quantity.  Without
a velocity there is none, and the table stays. -/
theorem solve_frame_speedingUp :
    ∃ x : Float, (solve (chain {}) (speedingUp Float) time (speeds 2 6)).1 = .ok x ∧
      x.isFinite = true ∧
      (solve (chain {}) (speedingUp Float) time (speeds 2 6)).2[5]? = some 6 ∧
      (solve (chain {}) (speedingUp Float) time (((speeds 2 6).insert 4 9).insert 8 1)).1 = .ok x ∧
      (solve (chain {}) (speedingUp Float) time ((∅ : ValueTable Float).insert 3 2)).2 =
        (∅ : ValueTable Float).insert 3 2 := by
  obtain ⟨-, hwrites, hreads⟩ := solve_frame (chain {}) (speedingUp Float) time (speeds 2 6)
  obtain ⟨hrefused, -, -⟩ := solve_frame (chain {}) (speedingUp Float) time ((∅ : ValueTable Float).insert 3 2)
  -- doubles have no equality to decide, so what the quotient is stays open
  have hquotient :
      ((Expr.sym "v" / Expr.sym "a" : Expr Float).value [("v", 6), ("a", 2)]).toOption.isSome := by
    decide +kernel
  obtain ⟨x, hx⟩ := Option.isSome_iff_exists.mp hquotient
  have hsolve : (solve (chain {}) (speedingUp Float) time (speeds 2 6)).1 = .ok x := by
    rw [solve_fst, targetValue_time]
    exact eq_ok_of_toOption hx
  obtain ⟨hfinite, -, hothers⟩ := hwrites x hsolve
  have hagree : Agree (speedingUp Float) 4 (speeds 2 6) (((speeds 2 6).insert 4 9).insert 8 1) := by
    intro q hq hne
    have h8 : q.id ≠ 8 := by
      simp only [speedingUp, List.mem_cons, List.not_mem_nil, or_false] at hq
      rcases hq with rfl | rfl | rfl <;> decide
    simp [Std.TreeMap.getElem?_insert, hne.symm, h8.symm]
  refine ⟨x, hsolve, hfinite, ?_, ?_, hrefused (.missingVariable "v") ?_⟩
  · rw [hothers 5 (by decide)]
    rfl
  · rw [hreads _ hagree, hsolve]
  · rw [solve_fst, targetValue, if_neg (not_not.mpr countEquals_speedingUp)]
    rfl

end FormulaNet.Solver

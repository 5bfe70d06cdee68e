import FormulaNet.Proofs.Expr.Symbols
import FormulaNet.Proofs.Rearrangement.Chain

/-!
# Answers that hold their own target

The symbolic strategy and the rules answer in the other symbols.  So does the last resort for a target that
stands alone: it looks for the target on the other side first.  A factor, dividend or divisor it brings to the
other side without looking whether the target is there as well, as in `x = c / x`, and then its answer is
circular.  `contains_iff_of_rearrange` says that no other answer is.
-/

namespace FormulaNet

variable {ν : Type} {q : Equation ν} {e whole parts : Expr ν} {target : String}

/-! ## Rules -/

namespace Rule

variable [Scalar ν] {rule : Rule ν}

/-- The rules solve for a symbol in terms of the others. -/
theorem count_of_mem_solutions (hrule : rule ∈ (builtin : List (Rule ν))) :
    ∀ p ∈ rule.solutions, p.2.count p.1 = 0 := by
  simp only [builtin_eq_trees, trees, List.mem_cons, List.not_mem_nil, or_false] at hrule
  rcases hrule with rfl | rfl | rfl | rfl | rfl | rfl | rfl
  all_goals
    simp only [newton, ohm, electricPower, kineticEnergy, circleArea, velocity, acceleration,
      List.forall_mem_cons, List.not_mem_nil, IsEmpty.forall_iff, implies_true, and_true]
    and_intros <;> rfl

theorem count_of_lookup (h : lookup builtin q target = some e) : e.count target = 0 := by
  obtain ⟨rule, hfind, hsol⟩ := Option.bind_eq_some_iff.mp h
  obtain ⟨before, after, heq, -⟩ := List.lookup_eq_some_iff.mp hsol
  exact count_of_mem_solutions (List.mem_of_find?_eq_some hfind) (target, e) (by simp [heq])

/-- There is no answer for a symbol that no rule solves for. -/
theorem lookup_eq_none (h : ∀ rule ∈ (builtin : List (Rule ν)), rule.solution? target = none) :
    lookup builtin q target = none :=
  Option.bind_eq_none_iff.mpr fun rule hfind ↦ h rule (List.mem_of_find?_eq_some hfind)

theorem solution?_x : ∀ rule ∈ (builtin : List (Rule ν)), rule.solution? "x" = none := by
  simp only [builtin_eq_trees, trees, List.forall_mem_cons, List.not_mem_nil, IsEmpty.forall_iff,
    implies_true, and_true]
  and_intros <;> rfl

end Rule

/-! ## Shapes -/

/-- A symbol that equals a product or a quotient of two symbols, with the target in two of the three places at
least. -/
def Equation.Repeats (q : Equation ν) (target : String) : Prop :=
  (∃ a op b c, (op = .mul ∨ op = .div) ∧
    (q = ⟨.sym a, .bin op (.sym b) (.sym c)⟩ ∨ q = ⟨.bin op (.sym b) (.sym c), .sym a⟩)) ∧
  2 ≤ q.lhs.count target + q.rhs.count target

namespace Strategy

/-- What the target stands alone against is free of it. -/
theorem count_eq_zero_of_alone (h : alone q target = some e) : e.count target = 0 := by
  unfold alone at h
  split at h
  · next hside =>
    cases h
    rw [Bool.and_eq_true, Bool.not_eq_true', Expr.contains_eq_false_iff] at hside
    exact hside.2
  · split at h
    · next hside =>
      cases h
      rw [Bool.and_eq_true, Bool.not_eq_true', Expr.contains_eq_false_iff] at hside
      exact hside.2
    · cases h

theorem exists_of_factor (h : factor whole parts target = some e) :
    ∃ a op b c, (op = .mul ∨ op = .div) ∧ whole = .sym a ∧ parts = .bin op (.sym b) (.sym c) := by
  unfold factor at h
  split at h
  · next a op b c =>
    split at h
    · exact ⟨a, .mul, b, c, .inl rfl, rfl, rfl⟩
    · exact ⟨a, .div, b, c, .inr rfl, rfl, rfl⟩
    · cases h
  · cases h

/-- A simple shape leaves the target in its answer just where it repeats the target. -/
theorem contains_iff_of_simpleShape? (h : simpleShape? q target = some e) :
    e.contains target = true ↔ q.Repeats target := by
  have hcount := count_of_simpleShape? h
  rw [Expr.contains_iff]
  constructor
  · intro he
    refine ⟨?_, by omega⟩
    rcases Option.or_eq_some_iff.mp h with h | ⟨-, h⟩
    · exact absurd (count_eq_zero_of_alone h) he
    · rcases Option.or_eq_some_iff.mp h with h | ⟨-, h⟩
      · obtain ⟨a, op, b, c, hop, hl, hr⟩ := exists_of_factor h
        exact ⟨a, op, b, c, hop, .inl (by rw [← hl, ← hr])⟩
      · obtain ⟨a, op, b, c, hop, hr, hl⟩ := exists_of_factor h
        exact ⟨a, op, b, c, hop, .inr (by rw [← hl, ← hr])⟩
  · rintro ⟨-, htwo⟩
    omega

/-! ## The chain -/

variable [Scalar ν]

theorem solution?_symbolic : (symbolic.attempt q target).solution? = (q.solveFor target).toOption := by
  unfold symbolic
  dsimp only
  cases q.solveFor target <;> rfl

/-- The full chain answers by the symbolic strategy, else by a rule, else by a simple shape. -/
theorem rearrange_chain_eq_ok_iff : rearrange (Solver.chain {}) q target = .ok e ↔
    (q.solveFor target).toOption.or ((Rule.lookup Rule.builtin q target).or (simpleShape? q target)) =
      some e := by
  have hchain : (Solver.chain {} : List (Strategy ν)) = [symbolic, textbook Rule.builtin, simple] := rfl
  have hrule : ((textbook Rule.builtin).attempt q target).solution? = Rule.lookup Rule.builtin q target :=
    Attempt.solution?_ofOption ..
  have hsimple : (simple.attempt q target).solution? = simpleShape? q target :=
    Attempt.solution?_ofOption ..
  rw [rearrange, hchain]
  simp only [List.findSome?_cons, List.findSome?_nil, solution?_symbolic, hrule, hsimple]
  cases (q.solveFor target).toOption <;> cases Rule.lookup Rule.builtin q target <;>
    cases simpleShape? q target <;> simp

/-- **Only one shape makes an answer circular.**  The full chain leaves the target in its answer if and only
if neither the symbolic strategy nor a rule has an answer, and the equation is one between a symbol and a
product or quotient of two symbols with the target in two places at least. -/
theorem contains_iff_of_rearrange (h : rearrange (Solver.chain {}) q target = .ok e) :
    e.contains target = true ↔
      (q.solveFor target).toOption = none ∧ Rule.lookup Rule.builtin q target = none ∧
        q.Repeats target := by
  rcases Option.or_eq_some_iff.mp (rearrange_chain_eq_ok_iff.mp h) with hsymbolic | ⟨hsymbolic, h⟩
  · have hfree : e.contains target = false := Expr.contains_eq_false_iff.mpr <| by
      by_contra he
      exact (Equation.symbol_of_solveFor (eq_ok_of_toOption hsymbolic) he).1 rfl
    simp [hfree, hsymbolic]
  · rcases Option.or_eq_some_iff.mp h with hrule | ⟨hrule, h⟩
    · have hfree : e.contains target = false := Expr.contains_eq_false_iff.mpr (Rule.count_of_lookup hrule)
      simp [hfree, hrule]
    · simp [contains_iff_of_simpleShape? h, hsymbolic, hrule]

/-- `x = c / x` is answered by `c / x`. -/
theorem contains_reciprocal :
    rearrange (Solver.chain {}) (⟨.sym "x", .sym "c" / .sym "x"⟩ : Equation Float) "x" =
        .ok (.sym "c" / .sym "x") ∧
      (.sym "c" / .sym "x" : Expr Float).contains "x" = true := by
  refine ⟨rearrange_chain_eq_ok_iff.mpr ?_, rfl⟩
  rw [Rule.lookup_eq_none Rule.solution?_x]
  rfl

/-- `x = x * x` is answered by `x / x`, since it repeats `x` and there is no other answer. -/
theorem contains_square :
    rearrange (Solver.chain {}) (⟨.sym "x", .sym "x" * .sym "x"⟩ : Equation Float) "x" =
        .ok (.sym "x" / .sym "x") ∧
      (.sym "x" / .sym "x" : Expr Float).contains "x" = true := by
  have hrule : Rule.lookup Rule.builtin (⟨.sym "x", .sym "x" * .sym "x"⟩ : Equation Float) "x" = none :=
    Rule.lookup_eq_none Rule.solution?_x
  have hanswer : rearrange (Solver.chain {}) (⟨.sym "x", .sym "x" * .sym "x"⟩ : Equation Float) "x" =
      .ok (.sym "x" / .sym "x") := by
    refine rearrange_chain_eq_ok_iff.mpr ?_
    rw [hrule]
    rfl
  have hrepeats : (⟨.sym "x", .sym "x" * .sym "x"⟩ : Equation Float).Repeats "x" :=
    ⟨⟨"x", .mul, "x", "x", .inl rfl, .inl rfl⟩, by decide⟩
  exact ⟨hanswer, (contains_iff_of_rearrange hanswer).mpr ⟨rfl, hrule, hrepeats⟩⟩

end Strategy

end FormulaNet

import FormulaNet.Proofs.Expr.Printer
import FormulaNet.Proofs.Rearrangement.Textbook
import FormulaNet.Rearrangement.Solver

/-!
# The chain on arithmetic equations

What the strategies after the symbolic one are worth for an equation without powers and functions.  A rule
covers it only if the equation is the rule's own, and then each of the symbols that the rule solves for
occurs once, so that isolation had already found a solution.  A simple shape has a target in its solution for
each occurrence but one, so either isolation came first or the solution is no use.  What the chain answers
is therefore the symbolic solution, or holds the target itself.
-/

namespace FormulaNet

open Scalar (Exact)
open FormulaNet.Expr (Named Plain)

/-! ## Rules -/

namespace Rule

variable {ν : Type} {rule : Rule ν} {q : Equation ν} {e : Expr ν} {target a b c : String}

/-- A rule between names or operations on two names, with solutions for symbols that occur once in it. -/
structure Linear (rule : Rule ν) : Prop where
  lhs : Named rule.equation.lhs
  rhs : Named rule.equation.rhs
  once : ∀ target ∈ rule.solutions.map Prod.fst,
    rule.equation.lhs.count target + rule.equation.rhs.count target = 1

/-- A rule for the symbols of a product or a quotient is linear. -/
theorem linear_of_bin {op : Operator} (hop : op ≠ .pow) (hnames : ∀ s ∈ [a, b, c], IsName s)
    (hdistinct : [a, b, c].Nodup) (hequation : rule.equation = ⟨.sym a, .bin op (.sym b) (.sym c)⟩)
    (hkeys : rule.solutions.map Prod.fst = [a, b, c]) : rule.Linear where
  lhs := hequation ▸ .sym (hnames a (by simp))
  rhs := hequation ▸ .bin (hnames b (by simp)) (hnames c (by simp)) hop
  once := by
    rw [hkeys, hequation]
    simp only [List.nodup_cons, List.mem_cons, List.not_mem_nil, or_false, not_or] at hdistinct
    obtain ⟨⟨hab, hac⟩, hbc, -⟩ := hdistinct
    intro target htarget
    simp only [List.mem_cons, List.not_mem_nil, or_false] at htarget
    rcases htarget with rfl | rfl | rfl
    · simp [Ne.symm hab, Ne.symm hac]
    · simp [hab, Ne.symm hbc]
    · simp [hac, hbc]

variable [Exact ν]

/-- A linear rule covers no plain equation but its own. -/
theorem Linear.eq_of_covers (h : rule.Linear) (hl : Plain q.lhs) (hr : Plain q.rhs)
    (hcovers : rule.covers q = true) : q = rule.equation ∨ q = rule.equation.flip := by
  rw [covers, Bool.or_eq_true, decide_eq_true_iff, decide_eq_true_iff] at hcovers
  rcases hcovers with hp | hp
  · exact .inl (Equation.eq_of_print h.lhs h.rhs hl hr hp.symm)
  · exact .inr (Equation.eq_of_print h.rhs h.lhs hl hr hp.symm)

/-- Where a linear rule has a solution, so has isolation. -/
theorem Linear.exists_solveFor (h : rule.Linear) (hl : Plain q.lhs) (hr : Plain q.rhs)
    (hcovers : rule.covers q = true) (hsol : rule.solution? target = some e) :
    ∃ e', q.solveFor target = .ok e' := by
  have hkey : target ∈ rule.solutions.map Prod.fst := by
    obtain ⟨before, after, heq, -⟩ := List.lookup_eq_some_iff.mp hsol
    rw [heq]
    simp
  have honce := h.once target hkey
  refine Equation.exists_solveFor_of_once hl.arithmetic hr.arithmetic ?_
  rcases h.eq_of_covers hl hr hcovers with rfl | rfl
  · exact honce
  · rw [Equation.flip, add_comm]
    exact honce

/-- A rule with a power covers no plain equation. -/
theorem not_covers_of_power (hpower : '^' ∈ rule.equation.rhs.print.toList) (hl : Plain q.lhs)
    (hr : Plain q.rhs) : ¬ rule.covers q = true := by
  have hnone : '^' ∉ q.print.toList := by
    have hside : ∀ {e : Expr ν}, Plain e → '^' ∉ e.print.toList := by
      intro e he hmem
      rcases Expr.mem_print he hmem with h | h | h
      · exact absurd h (by decide)
      · exact absurd h (by decide)
      · exact absurd h (by decide)
    rw [Equation.toList_print]
    simp [hside hl, hside hr]
  rw [covers, Bool.or_eq_true, decide_eq_true_iff, decide_eq_true_iff]
  rintro (hp | hp)
  · refine hnone ?_
    rw [← hp, Equation.toList_print]
    simp [hpower]
  · refine hnone ?_
    rw [← hp, Equation.toList_print]
    simp [Equation.flip, hpower]

/-- The sign of a power at the right end of a product is in print. -/
theorem mem_print_power (e b : Expr ν) (x : ν) :
    '^' ∈ (Expr.bin .mul e (.bin .pow b (.num x))).print.toList := by
  rw [Expr.toList_print_bin, List.mem_append]
  right
  simp [Expr.mem_bracketed, Expr.toList_print_bin, Operator.sign]

/-- The rules at hand are linear or have a power. -/
theorem linear_or_power (h : rule ∈ (builtin : List (Rule ν))) :
    rule.Linear ∨ '^' ∈ rule.equation.rhs.print.toList := by
  simp only [builtin_eq_trees, trees, List.mem_cons, List.not_mem_nil, or_false] at h
  rcases h with rfl | rfl | rfl | rfl | rfl | rfl | rfl
  · exact .inl (linear_of_bin (by decide) (by decide +kernel) (by decide) rfl rfl)
  · exact .inl (linear_of_bin (by decide) (by decide +kernel) (by decide) rfl rfl)
  · exact .inl (linear_of_bin (by decide) (by decide +kernel) (by decide) rfl rfl)
  · exact .inr (mem_print_power ..)
  · exact .inr (mem_print_power ..)
  · exact .inl (linear_of_bin (by decide) (by decide +kernel) (by decide) rfl rfl)
  · exact .inl (linear_of_bin (by decide) (by decide +kernel) (by decide) rfl rfl)

/-- Where the rules have a solution for a plain equation, so has isolation. -/
theorem exists_solveFor_of_lookup (hl : Plain q.lhs) (hr : Plain q.rhs)
    (hsol : lookup builtin q target = some e) : ∃ e', q.solveFor target = .ok e' := by
  obtain ⟨rule, hfind, hsol⟩ := Option.bind_eq_some_iff.mp hsol
  have hcovers : rule.covers q = true := List.find?_some (p := fun rule : Rule ν ↦ rule.covers q) hfind
  rcases linear_or_power (List.mem_of_find?_eq_some hfind) with h | h
  · exact h.exists_solveFor hl hr hcovers hsol
  · exact absurd hcovers (not_covers_of_power h hl hr)

end Rule

/-! ## Shapes -/

namespace Strategy

variable {ν : Type} {q : Equation ν} {whole parts e : Expr ν} {target : String}

theorem eq_sym_of_isSymbol (h : isSymbol target e = true) : e = .sym target := by
  cases e with
  | sym s => exact congrArg Expr.sym (of_decide_eq_true h)
  | num | neg | bin | call => cases h

/-- A side without the target that the target is equal to. -/
theorem count_of_alone (h : alone q target = some e) :
    q.lhs.count target + q.rhs.count target = e.count target + 1 := by
  unfold alone at h
  split at h
  · next hside =>
    cases h
    rw [Bool.and_eq_true] at hside
    rw [eq_sym_of_isSymbol hside.1, Expr.count_sym, if_pos rfl, Nat.add_comm]
  · split at h
    · next hside =>
      cases h
      rw [Bool.and_eq_true] at hside
      rw [eq_sym_of_isSymbol hside.1, Expr.count_sym, if_pos rfl]
    · cases h

/-- The symbols of a product or quotient, one of them the target, change sides. -/
theorem count_of_factor (h : factor whole parts target = some e) :
    whole.count target + parts.count target = e.count target + 1 := by
  unfold factor at h
  split at h
  · split at h
    · split at h
      · next hb =>
        cases h
        simp [hb, Expr.div_def]
        omega
      · split at h
        · next hc =>
          cases h
          simp [hc, Expr.div_def]
          omega
        · cases h
    · split at h
      · next hb =>
        cases h
        simp [hb, Expr.mul_def]
        omega
      · split at h
        · next hc =>
          cases h
          simp [hc, Expr.div_def]
          omega
        · cases h
    · cases h
  · cases h

/-- A simple shape loses one occurrence of the target, the one it solves for. -/
theorem count_of_simpleShape? (h : simpleShape? q target = some e) :
    q.lhs.count target + q.rhs.count target = e.count target + 1 := by
  rcases Option.or_eq_some_iff.mp h with h | ⟨-, h⟩
  · exact count_of_alone h
  · rcases Option.or_eq_some_iff.mp h with h | ⟨-, h⟩
    · exact count_of_factor h
    · rw [Nat.add_comm]
      exact count_of_factor h

/-! ## The chain -/

variable [Exact ν]

/-- Every strategy of the chain that solves a plain equation has either the symbolic strategy before it or
the target in its solution. -/
theorem exists_solveFor_or_contains {settings : SolverSettings} {s : Strategy ν} (hl : Plain q.lhs)
    (hr : Plain q.rhs) (hs : s ∈ Solver.chain settings) (hsol : (s.attempt q target).solution? = some e) :
    (∃ e', q.solveFor target = .ok e') ∨ e.count target ≠ 0 := by
  have hcases : s = symbolic ∨ s = textbook Rule.builtin ∨ s = simple := by
    obtain ⟨rules, shapes⟩ := settings
    cases rules <;> cases shapes <;> simp [Solver.chain] at hs <;> tauto
  rcases hcases with rfl | rfl | rfl
  · left
    unfold symbolic at hsol
    dsimp only at hsol
    split at hsol
    · next e' he => exact ⟨e', he⟩
    · cases hsol
  · left
    rw [textbook, Attempt.solution?_ofOption] at hsol
    exact Rule.exists_solveFor_of_lookup hl hr hsol
  · rw [simple, Attempt.solution?_ofOption] at hsol
    have hcount := count_of_simpleShape? hsol
    by_cases he : e.count target = 0
    · left
      exact Equation.exists_solveFor_of_once hl.arithmetic hr.arithmetic (by omega)
    · exact .inr he

/-- What the chain makes of a plain equation is the symbolic solution, or still holds the target. -/
theorem solveFor_or_contains {settings : SolverSettings} (hl : Plain q.lhs) (hr : Plain q.rhs)
    (h : rearrange (Solver.chain settings) q target = .ok e) :
    q.solveFor target = .ok e ∨ e.count target ≠ 0 := by
  unfold rearrange at h
  split at h
  · next e' hfind =>
    cases h
    cases hsymbolic : q.solveFor target with
    | ok e' =>
        left
        rw [Solver.chain, List.findSome?_cons, symbolic] at hfind
        simpa [hsymbolic] using hfind
    | error err =>
        obtain ⟨s, hs, hsol⟩ := List.exists_of_findSome?_eq_some hfind
        rcases exists_solveFor_or_contains hl hr hs hsol with ⟨e', he'⟩ | he
        · cases hsymbolic.symm.trans he'
        · exact .inr he
  · cases h

end Strategy

end FormulaNet

import FormulaNet.Proofs.Except
import FormulaNet.Proofs.Exact
import FormulaNet.Proofs.Expr.Symbols

/-!
# Which equations have a solution

Every operation can be undone but two: an absolute value, and a power with the literal zero for exponent, seen
from its base.  A symbol that occurs once and is exposed, that is outside of these two, is isolated.  The
solution is made of the other symbols of the equation, as is every solution.
-/

namespace FormulaNet

namespace Expr

variable {ν : Type} [Scalar ν] {target : String} {side rest : Expr ν} {op : Operator} {f : Function}

/-- No absolute value holds the target, and no base of a power with the literal zero for exponent. -/
def Exposed (target : String) : Expr ν → Prop
  | num _ => True
  | sym _ => True
  | neg e => e.Exposed target
  | bin op l r =>
    l.Exposed target ∧ r.Exposed target ∧
      (op = .pow → r.isNum (Scalar.ofNat 0) = true → l.contains target = false)
  | call f e => e.Exposed target ∧ (f = .abs → e.contains target = false)

theorem exists_undoLeft (other : Expr ν) (h : op = .pow → rest.isNum (Scalar.ofNat 0) = false) :
    ∃ e, undoLeft op other rest = some e := by
  cases op with
  | add | sub | mul | div => exact ⟨_, rfl⟩
  | pow =>
      cases rest with
      | num n =>
          have hzero : ¬ Scalar.same n (Scalar.ofNat 0) = true := by simpa [isNum] using h rfl
          simp only [undoLeft, number?_num, if_neg hzero]
          split_ifs <;> exact ⟨_, rfl⟩
      | sym _ | neg _ | bin _ _ _ | call _ _ => exact ⟨_, rfl⟩

omit [Scalar ν] in
theorem exists_undoRight (op : Operator) (other rest : Expr ν) : ∃ e, undoRight op other rest = some e := by
  cases op <;> exact ⟨_, rfl⟩

theorem exists_undoCall (other : Expr ν) (h : f ≠ .abs) : ∃ e, undoCall f other = some e := by
  cases f with
  | abs => exact absurd rfl h
  | _ => exact ⟨_, rfl⟩

/-- Isolation peels its way to an exposed target. -/
theorem exists_isolate_of_exposed (h : side.Exposed target) (hc : side.contains target = true)
    (other : Expr ν) : ∃ e, isolate target side other = some e := by
  induction side generalizing other with
  | num x => cases hc
  | sym s =>
      refine ⟨other, if_pos ?_⟩
      by_contra hs
      exact contains_iff.mp hc (if_neg hs)
  | neg side ih => exact ih h hc (-other)
  | bin op l r ihl ihr =>
      obtain ⟨hl, hr, hzero⟩ := h
      unfold isolate
      split
      · next hlc =>
        have hrest : op = .pow → r.isNum (Scalar.ofNat 0) = false := by
          intro hop
          by_contra hr
          rw [hzero hop (eq_true_of_ne_false hr)] at hlc
          cases hlc
        obtain ⟨other', hundo⟩ := exists_undoLeft other hrest
        rw [hundo]
        exact ihl hl hlc other'
      · next hlc =>
        have hrc : r.contains target = true := by
          rw [contains_iff, count_bin] at hc
          rw [contains_iff, not_not] at hlc
          rw [contains_iff]
          omega
        obtain ⟨other', hundo⟩ := exists_undoRight op other l
        rw [hundo]
        exact ihr hr hrc other'
  | call f side ih =>
      obtain ⟨hside, habs⟩ := h
      have hf : f ≠ .abs := by
        intro hf
        rw [show side.contains target = true from hc] at habs
        cases habs hf
      obtain ⟨other', hundo⟩ := exists_undoCall other hf
      rw [isolate, hundo]
      exact ih hside hc other'

end Expr

namespace Equation

open FormulaNet.Expr

variable {ν : Type} [Scalar ν] {q : Equation ν} {target : String}

theorem exists_solveFor_of_exposed (hl : q.lhs.Exposed target) (hr : q.rhs.Exposed target)
    (honce : q.lhs.count target + q.rhs.count target = 1) : ∃ e, q.solveFor target = .ok e := by
  suffices h : ∃ e, q.solution? target = some e by
    obtain ⟨e, he⟩ := h
    exact ⟨e.simplify, by rw [solveFor, he]⟩
  rcases Nat.add_eq_one_iff.mp honce with ⟨hleft, hright⟩ | ⟨hleft, hright⟩
  · rw [solution?, hleft, hright]
    exact exists_isolate_of_exposed hr (contains_iff.mpr (by omega)) q.lhs
  · rw [solution?, hleft, hright]
    exact exists_isolate_of_exposed hl (contains_iff.mpr (by omega)) q.rhs

/-- **A single exposed symbol is solved for, and solutions are free of what they solve for.**  If the target
occurs once, and neither in an absolute value nor in the base of a zeroth power, then there is a solution.
Every solution is free of the target and holds symbols of the equation only. -/
theorem solveFor_exposed (q : Equation ν) (target : String) :
    (q.lhs.count target + q.rhs.count target = 1 → q.lhs.Exposed target → q.rhs.Exposed target →
        ∃ e, q.solveFor target = .ok e) ∧
      ∀ e, q.solveFor target = .ok e →
        e.contains target = false ∧
          ∀ s, e.contains s = true → q.lhs.contains s = true ∨ q.rhs.contains s = true := by
  refine ⟨fun honce hl hr ↦ exists_solveFor_of_exposed hl hr honce, fun e hsol ↦ ⟨?_, fun s hs ↦ ?_⟩⟩
  · by_contra he
    exact (symbol_of_solveFor hsol (contains_iff.mp (eq_true_of_ne_false he))).1 rfl
  · have hcount := (symbol_of_solveFor hsol (contains_iff.mp hs)).2
    rw [count_zeroForm] at hcount
    rw [contains_iff, contains_iff]
    omega

/-- An equation with the target in the base of a power and in a call. -/
def wave : Equation ℚ := ⟨sym "y", num 2 * bin .pow (call .sin (sym "x")) (num 3)⟩

/-- Neither that power nor that call is in the way, and the solution is made of the other symbol. -/
theorem solveFor_exposed_wave :
    wave.lhs.count "x" + wave.rhs.count "x" = 1 ∧ wave.lhs.Exposed "x" ∧ wave.rhs.Exposed "x" ∧
      (∃ e, wave.solveFor "x" = .ok e) ∧
      wave.solveFor "x" = .ok (call .asin (bin .pow (sym "y" / num 2) (num (1 / 3)))) ∧
      (call .asin (bin .pow (sym "y" / num 2) (num (1 / 3))) : Expr ℚ).contains "x" = false ∧
      (wave.lhs.contains "y" = true ∨ wave.rhs.contains "y" = true) := by
  have hl : wave.lhs.Exposed "x" := trivial
  have hr : wave.rhs.Exposed "x" :=
    ⟨trivial, ⟨⟨trivial, nofun⟩, trivial, fun _ hzero ↦ absurd hzero (by decide +kernel)⟩, nofun⟩
  have hsol : wave.solveFor "x" = .ok (call .asin (bin .pow (sym "y" / num 2) (num (1 / 3)))) :=
    eq_ok_of_toOption (by decide +kernel)
  obtain ⟨hfree, hsymbols⟩ := (solveFor_exposed wave "x").2 _ hsol
  exact ⟨rfl, hl, hr, (solveFor_exposed wave "x").1 rfl hl hr, hsol, hfree, hsymbols "y" rfl⟩

end Equation

end FormulaNet

import FormulaNet.Expr.Isolate
import Mathlib.Tactic.Common

/-!
# The symbols of a solution

Simplification brings in no symbols.  Undoing an operation moves the other operand to the other side, so that
isolation gives away one occurrence of the target and keeps all others, and a linear form consists of the
other symbols.  A solution is therefore made of the symbols of the equation without the target.
-/

namespace FormulaNet

namespace Expr

variable {ν : Type} {e l r slope offset other rest side : Expr ν} {op : Operator} {s target : String}

/-- The one expression is made of symbols of the other, without the target and none more often. -/
def Apart (target : String) (whole part : Expr ν) : Prop :=
  ∀ s, part.count s ≤ if s = target then 0 else whole.count s

namespace Apart

variable {a b : Expr ν}

theorem num (x : ν) : Apart target e (num x) := fun _ ↦ Nat.zero_le _

theorem self (he : e.contains target = false) : Apart target e e := by
  intro s
  split_ifs with hs
  · exact Nat.le_of_eq (hs ▸ contains_eq_false_iff.mp he)
  · exact Nat.le_refl _

theorem neg (h : Apart target e a) : Apart target (neg e) (neg a) := h

theorem bin (op op' : Operator) (hl : Apart target l a) (hr : Apart target r b) :
    Apart target (bin op l r) (bin op' a b) := by
  intro s
  have hl := hl s
  have hr := hr s
  rw [count_bin, count_bin]
  split_ifs at * <;> omega

end Apart

variable [Scalar ν]

/-! ## Simplification -/

theorem count_negated (e : Expr ν) (s : String) : (negated e).count s = e.count s := by
  cases e <;> rfl

theorem count_dropNeutral_le (op : Operator) (l r : Expr ν) (s : String) :
    (dropNeutral op l r).count s ≤ l.count s + r.count s := by
  cases op <;> simp only [dropNeutral] <;> split_ifs <;> simp [count_negated]

theorem count_join_le (op : Operator) (l r : Expr ν) (s : String) :
    (join op l r).count s ≤ l.count s + r.count s := by
  unfold join
  split
  · exact Nat.zero_le _
  · exact count_dropNeutral_le op l r s

/-- **Simplification brings in no symbols.** -/
theorem count_simplify_le (e : Expr ν) (s : String) : e.simplify.count s ≤ e.count s := by
  induction e with
  | num x => exact Nat.le_refl _
  | sym t => exact Nat.le_refl _
  | neg e ih =>
      rw [simplify_neg, count_negated]
      exact ih
  | bin op l r ihl ihr =>
      rw [simplify_bin]
      exact Nat.le_trans (count_join_le op _ _ s) (Nat.add_le_add ihl ihr)
  | call f e ih => exact ih

/-! ## Isolation -/

theorem count_undoLeft (h : undoLeft op other rest = some e) (s : String) :
    e.count s = other.count s + rest.count s := by
  cases op with
  | add | sub | mul | div =>
      cases h
      rfl
  | pow =>
      unfold undoLeft at h
      dsimp only at h
      split at h
      · next n hn =>
        obtain rfl := number?_eq_some_iff.mp hn
        split at h
        · cases h
          rfl
        · split at h
          · cases h
          · cases h
            rfl
      · cases h
        simp [div_def]

omit [Scalar ν] in
theorem count_undoRight (h : undoRight op other rest = some e) (s : String) :
    e.count s = other.count s + rest.count s := by
  cases op <;> cases h <;> simp [sub_def, div_def, Nat.add_comm]

theorem count_undoCall {f : Function} (h : undoCall f other = some e) (s : String) :
    e.count s = other.count s := by
  cases f <;> cases h <;> simp

/-- Isolation gives away one occurrence of the target. -/
theorem count_isolate (h : isolate target side other = some e) (s : String) :
    e.count s + (if target = s then 1 else 0) = side.count s + other.count s := by
  induction side generalizing other with
  | num x => cases h
  | sym t =>
      unfold isolate at h
      split at h
      · next ht =>
        cases h
        rw [← ht, count_sym, Nat.add_comm]
      · cases h
  | neg side ih =>
      rw [isolate] at h
      have hcount := ih h
      exact hcount
  | bin op l r ihl ihr =>
      unfold isolate at h
      split at h
      · obtain ⟨other', hundo, h⟩ := Option.bind_eq_some_iff.mp h
        rw [ihl h, count_undoLeft hundo, count_bin]
        omega
      · obtain ⟨other', hundo, h⟩ := Option.bind_eq_some_iff.mp h
        rw [ihr h, count_undoRight hundo, count_bin]
        omega
  | call f side ih =>
      obtain ⟨other', hundo, h⟩ := Option.bind_eq_some_iff.mp h
      rw [ih h, count_undoCall hundo, count_call]

/-- What isolation makes of the only occurrence of the target is free of it. -/
theorem symbol_of_isolate (h : isolate target side other = some e) (hside : side.count target = 1)
    (hother : other.count target = 0) (hs : e.count s ≠ 0) :
    s ≠ target ∧ side.count s + other.count s ≠ 0 := by
  have hcount := count_isolate h s
  split_ifs at hcount with ht
  · subst ht
    omega
  · exact ⟨Ne.symm ht, by omega⟩

/-! ## Collection -/

/-- An expression without the target is the offset of a level line. -/
theorem apart_of_not_contains (hc : ¬ e.contains target = true)
    (h : linear? target e = some (slope, offset)) : Apart target e slope ∧ Apart target e offset := by
  unfold linear? at h
  rw [if_neg hc] at h
  cases h
  exact ⟨.num _, .self (by simpa using hc)⟩

/-- Slope and offset are made of the other symbols. -/
theorem apart_of_linear? (h : linear? target e = some (slope, offset)) :
    Apart target e slope ∧ Apart target e offset := by
  induction e generalizing slope offset with
  | num x => exact apart_of_not_contains (by simp [contains_iff]) h
  | sym t =>
      by_cases hc : (sym t : Expr ν).contains target = true
      · rw [linear?, if_pos hc] at h
        cases h
        exact ⟨.num _, .num _⟩
      · exact apart_of_not_contains hc h
  | neg e ih =>
      by_cases hc : (neg e).contains target = true
      · rw [linear?, if_pos hc, Option.map_eq_some_iff] at h
        obtain ⟨⟨a, b⟩, hab, heq⟩ := h
        cases heq
        exact ⟨(ih hab).1.neg, (ih hab).2.neg⟩
      · exact apart_of_not_contains hc h
  | bin op l r ihl ihr =>
      by_cases hc : (bin op l r).contains target = true
      · cases op with
        | add | sub =>
            rw [linear?, if_pos hc] at h
            obtain ⟨⟨a, b⟩, hl, h⟩ := Option.bind_eq_some_iff.mp h
            obtain ⟨⟨a', b'⟩, hr, heq⟩ := Option.bind_eq_some_iff.mp h
            cases heq
            exact ⟨.bin _ _ (ihl hl).1 (ihr hr).1, .bin _ _ (ihl hl).2 (ihr hr).2⟩
        | mul =>
            rw [linear?, if_pos hc] at h
            split at h
            · next hlc =>
              obtain ⟨⟨a, b⟩, hr, heq⟩ := Option.map_eq_some_iff.mp h
              cases heq
              have hl : Apart target l l := .self (by simpa using hlc)
              exact ⟨.bin _ _ hl (ihr hr).1, .bin _ _ hl (ihr hr).2⟩
            · split at h
              · next hrc =>
                obtain ⟨⟨a, b⟩, hl, heq⟩ := Option.map_eq_some_iff.mp h
                cases heq
                have hr : Apart target r r := .self (by simpa using hrc)
                exact ⟨.bin _ _ (ihl hl).1 hr, .bin _ _ (ihl hl).2 hr⟩
              · cases h
        | div =>
            rw [linear?, if_pos hc] at h
            split at h
            · next hrc =>
              obtain ⟨⟨a, b⟩, hl, heq⟩ := Option.map_eq_some_iff.mp h
              cases heq
              have hr : Apart target r r := .self (by simpa using hrc)
              exact ⟨.bin _ _ (ihl hl).1 hr, .bin _ _ (ihl hl).2 hr⟩
            · cases h
        | pow =>
            rw [linear?, if_pos hc] at h
            cases h
      · exact apart_of_not_contains hc h
  | call f e ih =>
      by_cases hc : (call f e).contains target = true
      · rw [linear?, if_pos hc] at h
        cases h
      · exact apart_of_not_contains hc h

end Expr

namespace Equation

open FormulaNet.Expr

variable {ν : Type} [Scalar ν] {q : Equation ν} {e : Expr ν} {s target : String}

theorem symbol_of_collect (h : q.collect target = some e) (hs : e.count s ≠ 0) :
    s ≠ target ∧ q.zeroForm.count s ≠ 0 := by
  obtain ⟨⟨slope, offset⟩, hlinear, h⟩ := Option.bind_eq_some_iff.mp h
  obtain ⟨hslope, hoffset⟩ := apart_of_linear? hlinear
  dsimp only at h
  split at h
  · cases h
  · cases h
    have hslope := Nat.le_trans (count_simplify_le slope s) (hslope s)
    have hoffset := hoffset s
    simp only [div_def, neg_def, count_bin, count_neg] at hs
    split_ifs at hslope hoffset with ht
    · omega
    · exact ⟨ht, by omega⟩

/-- **A solution is made of the other symbols of its equation.** -/
theorem symbol_of_solveFor (h : q.solveFor target = .ok e) (hs : e.count s ≠ 0) :
    s ≠ target ∧ q.zeroForm.count s ≠ 0 := by
  unfold solveFor at h
  split at h
  · next e' hsol =>
    cases h
    have hs : e'.count s ≠ 0 := fun h0 ↦ hs (Nat.le_zero.mp (h0 ▸ count_simplify_le e' s))
    unfold solution? at hsol
    split at hsol
    · cases hsol
    · next hl hr => exact symbol_of_isolate hsol hl hr hs
    · next hl hr =>
      rw [count_zeroForm, Nat.add_comm]
      exact symbol_of_isolate hsol hr hl hs
    · exact symbol_of_collect hsol hs
  · cases h

end Equation

end FormulaNet

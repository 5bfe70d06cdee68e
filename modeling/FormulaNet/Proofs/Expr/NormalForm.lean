import FormulaNet.Expr.Simplify
import Mathlib.Tactic.Common

/-!
# Simplification comes to rest

Dropping a neutral operand may leave a negation that was not there before, and such a negation is simplified
in its turn.  `Simplifies` is simplification with these second passes written out.  Every pass ends, because a
simplified expression has no more nodes than it had before, so that the new negation is smaller than what it
comes from.  And the second passes have little to do: `simplify` leaves simplified expressions as they are, so
negating a simplified operand in one step comes to the same.

Nothing is asked of the scalars here: literals may be infinite or undefined.  `Leaves` lists the rules by which
operands are dropped, for the lemmas that follow and for all that is said of values elsewhere.
-/

namespace FormulaNet.Expr

variable {ν : Type}

/-- The number of nodes. -/
def size : Expr ν → Nat
  | num _ => 1
  | sym _ => 1
  | neg e => e.size + 1
  | bin _ l r => l.size + r.size + 1
  | call _ e => e.size + 1

theorem size_pos (e : Expr ν) : 0 < e.size := by cases e <;> simp [size]

/-- What dropping a neutral operand leaves: an expression, or one whose negation is still to be simplified. -/
inductive Remainder (ν : Type) where
  | done (e : Expr ν)
  | negate (e : Expr ν)

variable [Scalar ν]

/-- The remainder with the negation carried out. -/
def Remainder.settled : Remainder ν → Expr ν
  | done e => e
  | negate e => negated e

/-- Drops a neutral operand and leaves the negation that may come up. -/
def remainder (op : Operator) (l r : Expr ν) : Remainder ν :=
  let zero := Scalar.ofNat 0
  let one := Scalar.ofNat 1
  match op with
  | .add => if l.isNum zero then .done r else if r.isNum zero then .done l else .done (bin .add l r)
  | .sub => if r.isNum zero then .done l else if l.isNum zero then .negate r else .done (bin .sub l r)
  | .mul =>
    if l.isNum zero || r.isNum zero then .done (num zero)
    else if l.isNum one then .done r
    else if r.isNum one then .done l
    else if l.isNum (-one) then .negate r
    else if r.isNum (-one) then .negate l
    else .done (bin .mul l r)
  | .div =>
    if r.isNum one then .done l else if r.isNum (-one) then .negate l else .done (bin .div l r)
  | .pow => if r.isNum one then .done l else .done (bin .pow l r)

/-- Simplification from the leaves up, with a second pass over each negation that comes up. -/
inductive Simplifies : Expr ν → Expr ν → Prop
  | num (x : ν) : Simplifies (num x) (num x)
  | sym (s : String) : Simplifies (sym s) (sym s)
  | neg {e e' : Expr ν} : Simplifies e e' → Simplifies (neg e) (negated e')
  | call {f : Function} {e e' : Expr ν} : Simplifies e e' → Simplifies (call f e) (call f e')
  | fold {op : Operator} {l l' r r' : Expr ν} {x : ν} : Simplifies l l' → Simplifies r r' →
      fold? op l' r' = some x → Simplifies (bin op l r) (.num x)
  | done {op : Operator} {l l' r r' e : Expr ν} : Simplifies l l' → Simplifies r r' →
      fold? op l' r' = none → remainder op l' r' = .done e → Simplifies (bin op l r) e
  | again {op : Operator} {l l' r r' e e' : Expr ν} : Simplifies l l' → Simplifies r r' →
      fold? op l' r' = none → remainder op l' r' = .negate e → Simplifies (.neg e) e' →
      Simplifies (bin op l r) e'

/-! ## Rules

Which literals an operation drops, and what is left then.  Whatever is shown of dropping operands is shown rule
by rule. -/

/-- The left operands that leave the right one. -/
inductive NeutralLeft : Operator → ν → Prop
  | add : NeutralLeft .add (Scalar.ofNat 0)
  | mul : NeutralLeft .mul (Scalar.ofNat 1)

/-- The right operands that leave the left one. -/
inductive NeutralRight : Operator → ν → Prop
  | add : NeutralRight .add (Scalar.ofNat 0)
  | sub : NeutralRight .sub (Scalar.ofNat 0)
  | mul : NeutralRight .mul (Scalar.ofNat 1)
  | div : NeutralRight .div (Scalar.ofNat 1)
  | pow : NeutralRight .pow (Scalar.ofNat 1)

/-- The left operands that leave the negation of the right one. -/
inductive NegatingLeft : Operator → ν → Prop
  | sub : NegatingLeft .sub (Scalar.ofNat 0)
  | mul : NegatingLeft .mul (-Scalar.ofNat 1)

/-- The right operands that leave the negation of the left one. -/
inductive NegatingRight : Operator → ν → Prop
  | mul : NegatingRight .mul (-Scalar.ofNat 1)
  | div : NegatingRight .div (-Scalar.ofNat 1)

/-- What dropping an operand of the operation leaves, and by which rule. -/
inductive Leaves (op : Operator) (l r : Expr ν) : Remainder ν → Prop
  | whole : Leaves op l r (.done (bin op l r))
  | zero : op = .mul → (l.isNum (Scalar.ofNat 0) || r.isNum (Scalar.ofNat 0)) = true →
      Leaves op l r (.done (num (Scalar.ofNat 0)))
  | left {u : ν} : NeutralRight op u → r.isNum u = true → Leaves op l r (.done l)
  | right {u : ν} : NeutralLeft op u → l.isNum u = true → Leaves op l r (.done r)
  | negateLeft {u : ν} : NegatingRight op u → r.isNum u = true → Leaves op l r (.negate l)
  | negateRight {u : ν} : NegatingLeft op u → l.isNum u = true → Leaves op l r (.negate r)

variable {e e' l r : Expr ν} {op : Operator}

theorem leaves_remainder (op : Operator) (l r : Expr ν) : Leaves op l r (remainder op l r) := by
  cases op with
  | add =>
      simp only [remainder]
      split_ifs with hl hr
      · exact .right .add hl
      · exact .left .add hr
      · exact .whole
  | sub =>
      simp only [remainder]
      split_ifs with hr hl
      · exact .left .sub hr
      · exact .negateRight .sub hl
      · exact .whole
  | mul =>
      simp only [remainder]
      split_ifs with hzero hl hr hl' hr'
      · exact .zero rfl hzero
      · exact .right .mul hl
      · exact .left .mul hr
      · exact .negateRight .mul hl'
      · exact .negateLeft .mul hr'
      · exact .whole
  | div =>
      simp only [remainder]
      split_ifs with hr hr'
      · exact .left .div hr
      · exact .negateLeft .div hr'
      · exact .whole
  | pow =>
      simp only [remainder]
      split_ifs with hr
      · exact .left .pow hr
      · exact .whole

theorem dropNeutral_eq_settled (op : Operator) (l r : Expr ν) :
    dropNeutral op l r = (remainder op l r).settled := by
  cases op <;> simp only [remainder, dropNeutral] <;> split_ifs <;> rfl

theorem join_eq_settled (h : fold? op l r = none) : join op l r = (remainder op l r).settled := by
  simp only [join, h, dropNeutral_eq_settled]

theorem join_eq_num {x : ν} (h : fold? op l r = some x) : join op l r = num x := by
  simp only [join, h]

/-! ## Nothing grows -/

theorem size_negated_le (e : Expr ν) : (negated e).size ≤ e.size + 1 := by
  cases e <;> simp only [negated, size] <;> omega

theorem size_join_le (op : Operator) (l r : Expr ν) : (join op l r).size ≤ l.size + r.size + 1 := by
  cases hf : fold? op l r with
  | some x =>
      rw [join_eq_num hf, size]
      omega
  | none =>
      rw [join_eq_settled hf]
      have hl := size_negated_le l
      have hr := size_negated_le r
      have hleaves := leaves_remainder op l r
      generalize remainder op l r = d at hleaves
      cases hleaves <;> simp only [Remainder.settled, size] <;> omega

theorem size_simplify_le (e : Expr ν) : e.simplify.size ≤ e.size := by
  induction e with
  | num x => exact Nat.le_refl _
  | sym s => exact Nat.le_refl _
  | neg e ih => exact Nat.le_trans (size_negated_le _) (Nat.add_le_add_right ih 1)
  | bin op l r ihl ihr =>
      refine Nat.le_trans (size_join_le op _ _) ?_
      simp only [size]
      omega
  | call f e ih => exact Nat.add_le_add_right ih 1

/-! ## Simplified expressions stay -/

theorem simplify_negated (h : e.simplify = e) : (negated e).simplify = negated e := by
  cases e with
  | num x => rfl
  | neg e =>
      -- The operand of a simplified negation is simplified, as it could not have had two more signs.
      rw [simplify_neg] at h
      rw [negated]
      generalize hs : e.simplify = s at h
      cases s with
      | num x => cases h
      | neg s =>
          have hsize := size_simplify_le e
          rw [hs, show s = neg e from h] at hsize
          simp only [size] at hsize
          omega
      | sym _ | bin _ _ _ | call _ _ => exact neg.inj h
  | sym s => rfl
  | bin op l r => exact congrArg negated h
  | call f e => exact congrArg negated h

theorem simplify_join (hl : l.simplify = l) (hr : r.simplify = r) :
    (join op l r).simplify = join op l r := by
  cases hf : fold? op l r with
  | some x => rw [join_eq_num hf, simplify_num]
  | none =>
      have hjoin := join_eq_settled hf
      have hleaves := leaves_remainder op l r
      rw [hjoin]
      generalize remainder op l r = d at hjoin hleaves
      cases hleaves with
      | whole => rw [Remainder.settled, simplify_bin, hl, hr, hjoin, Remainder.settled]
      | zero => rfl
      | left => exact hl
      | right => exact hr
      | negateLeft => exact simplify_negated hl
      | negateRight => exact simplify_negated hr

theorem simplify_simplify (e : Expr ν) : e.simplify.simplify = e.simplify := by
  induction e with
  | num x => rfl
  | sym s => rfl
  | neg e ih => exact simplify_negated ih
  | bin op l r ihl ihr => exact simplify_join ihl ihr
  | call f e ih => exact congrArg (call f) ih

/-! ## The process ends -/

theorem size_neg_le_of_remainder (h : remainder op l r = .negate e) : (neg e).size ≤ l.size + r.size := by
  have hl := l.size_pos
  have hr := r.size_pos
  have hleaves : Leaves op l r (.negate e) := h ▸ leaves_remainder ..
  cases hleaves <;> simp only [size] <;> omega

/-- A second pass over the negation of a simplified operand does what one step does. -/
theorem simplify_neg_of_remainder (h : remainder op l.simplify r.simplify = .negate e) :
    (neg e).simplify = negated e := by
  have hleaves : Leaves op l.simplify r.simplify (.negate e) := h ▸ leaves_remainder ..
  cases hleaves <;> rw [simplify_neg, simplify_simplify]

/-- The process ends with nothing but the simplified expression. -/
theorem Simplifies.eq_simplify (h : Simplifies e e') : e' = e.simplify := by
  induction h with
  | num x => rfl
  | sym s => rfl
  | neg _ ih => rw [simplify_neg, ih]
  | call _ ih => rw [simplify_call, ih]
  | fold _ _ hf ihl ihr =>
      subst ihl ihr
      rw [simplify_bin, join_eq_num hf]
  | done _ _ hf hd ihl ihr =>
      subst ihl ihr
      rw [simplify_bin, join_eq_settled hf, hd, Remainder.settled]
  | again _ _ hf hd _ ihl ihr ih =>
      subst ihl ihr
      rw [simplify_bin, join_eq_settled hf, hd, Remainder.settled, ih, simplify_neg_of_remainder hd]

/-- An operation is done once its operands are, and the negations with fewer nodes. -/
theorem simplifies_bin (hl : Simplifies l l.simplify) (hr : Simplifies r r.simplify)
    (hneg : ∀ e : Expr ν, (neg e).size < (bin op l r).size → Simplifies (neg e) (neg e).simplify) :
    Simplifies (bin op l r) (bin op l r).simplify := by
  rw [simplify_bin]
  cases hf : fold? op l.simplify r.simplify with
  | some x =>
      rw [join_eq_num hf]
      exact .fold hl hr hf
  | none =>
      rw [join_eq_settled hf]
      cases hd : remainder op l.simplify r.simplify with
      | done e => exact .done hl hr hf hd
      | negate e =>
          have hsize : (neg e).size < (bin op l r).size := by
            calc (neg e).size ≤ l.simplify.size + r.simplify.size := size_neg_le_of_remainder hd
              _ ≤ l.size + r.size := Nat.add_le_add (size_simplify_le l) (size_simplify_le r)
              _ < (bin op l r).size := Nat.lt_succ_self _
          refine .again hl hr hf hd ?_
          rw [Remainder.settled, ← simplify_neg_of_remainder hd]
          exact hneg e hsize

/-- The process ends: every pass is over an expression with fewer nodes. -/
theorem simplifies_simplify (e : Expr ν) : Simplifies e e.simplify := by
  induction hn : e.size using Nat.strongRecOn generalizing e with
  | ind n ih =>
    subst hn
    cases e with
    | num x => exact .num x
    | sym s => exact .sym s
    | neg e => exact .neg (ih _ (Nat.lt_succ_self _) e rfl)
    | call f e => exact .call (ih _ (Nat.lt_succ_self _) e rfl)
    | bin op l r =>
        have hl : l.size < (bin op l r).size := by simp only [size]; omega
        have hr : r.size < (bin op l r).size := by simp only [size]; omega
        exact simplifies_bin (ih _ hl l rfl) (ih _ hr r rfl) fun e he ↦ ih _ he (neg e) rfl

/-- **Simplification comes to rest.**  The process ends with the simplified expression and with nothing else;
that expression has no more nodes than the one it comes from, and simplifying it again changes nothing. -/
theorem simplify_settles (e : Expr ν) :
    (∀ e', Simplifies e e' ↔ e' = e.simplify) ∧ e.simplify.size ≤ e.size ∧
      e.simplify.simplify = e.simplify := by
  refine ⟨fun e' ↦ ⟨Simplifies.eq_simplify, ?_⟩, size_simplify_le e, simplify_simplify e⟩
  rintro rfl
  exact simplifies_simplify e

end FormulaNet.Expr

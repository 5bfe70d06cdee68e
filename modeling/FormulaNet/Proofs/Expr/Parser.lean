import FormulaNet.Expr.Parser
import FormulaNet.Proofs.Except
import Mathlib.Tactic.Common

/-!
# What the parser reads

`Reads` is the grammar as a relation: what a rule reads off the front of a list of tokens, and what it
leaves.  All that the parser accepts is read by it.  Each rule calls others on the same list in a fixed
order, and on shorter lists in any order, so soundness is proved rule by rule, assuming it for shorter lists.
-/

namespace FormulaNet.Expr

variable {ν : Type} [Scalar ν]

/-- The rules of the grammar.  A tail goes on with what has been read to its left. -/
inductive Rule (ν : Type) where
  | sum
  | sumTail (left : Expr ν)
  | product
  | productTail (left : Expr ν)
  | signed
  | power
  | operand

/-- The rule reads an expression off the front of some tokens and leaves the rest. -/
inductive Reads (last : Token) : Rule ν → List Token → Expr ν → List Token → Prop
  | sum {ts rest rest' : List Token} {left e : Expr ν} :
      Reads last .product ts left rest → Reads last (.sumTail left) rest e rest' →
      Reads last .sum ts e rest'
  | sumStop {ts : List Token} {left : Expr ν} :
      (∀ t ∈ ts.head?, sumOperator? t.kind = none) → Reads last (.sumTail left) ts left ts
  | sumMore {t : Token} {ts rest rest' : List Token} {op : Operator} {left right e : Expr ν} :
      sumOperator? t.kind = some op → Reads last .product ts right rest →
      Reads last (.sumTail (bin op left right)) rest e rest' → Reads last (.sumTail left) (t :: ts) e rest'
  | product {ts rest rest' : List Token} {left e : Expr ν} :
      Reads last .signed ts left rest → Reads last (.productTail left) rest e rest' →
      Reads last .product ts e rest'
  | productStop {ts : List Token} {left : Expr ν} :
      (∀ t ∈ ts.head?, productOperator? t.kind = none) → Reads last (.productTail left) ts left ts
  | productMore {t : Token} {ts rest rest' : List Token} {op : Operator} {left right e : Expr ν} :
      productOperator? t.kind = some op → Reads last .signed ts right rest →
      Reads last (.productTail (bin op left right)) rest e rest' →
      Reads last (.productTail left) (t :: ts) e rest'
  | minus {t : Token} {ts rest : List Token} {e : Expr ν} :
      t.kind = .minus → Reads last .signed ts e rest → Reads last .signed (t :: ts) (withMinus e) rest
  | plus {t : Token} {ts rest : List Token} {e : Expr ν} :
      t.kind = .plus → Reads last .signed ts e rest → Reads last .signed (t :: ts) e rest
  | unsigned {t : Token} {ts rest : List Token} {e : Expr ν} :
      t.kind ≠ .minus → t.kind ≠ .plus → Reads last .power (t :: ts) e rest →
      Reads last .signed (t :: ts) e rest
  | base {ts rest : List Token} {e : Expr ν} :
      Reads last .operand ts e rest → (∀ t ∈ rest.head?, t.kind ≠ .caret) → Reads last .power ts e rest
  | raised {t : Token} {ts rest rest' : List Token} {base exponent : Expr ν} :
      Reads last .operand ts base (t :: rest) → t.kind = .caret → Reads last .signed rest exponent rest' →
      Reads last .power ts (bin .pow base exponent) rest'
  | number {t : Token} {ts : List Token} {x : ν} :
      t.kind = .number → Scalar.read? t.text = some x → Reads last .operand (t :: ts) (num x) ts
  | symbol {t : Token} {ts : List Token} :
      t.kind = .identifier → Function.ofName? t.text = none → Reads last .operand (t :: ts) (sym t.text) ts
  | brackets {t : Token} {ts rest rest' : List Token} {e : Expr ν} :
      t.kind = .openBracket → Reads last .sum ts e rest → expect .closeBracket last rest = .ok rest' →
      Reads last .operand (t :: ts) e rest'
  | call {t u : Token} {ts rest rest' : List Token} {f : Function} {e : Expr ν} :
      t.kind = .identifier → Function.ofName? t.text = some f → u.kind = .openBracket →
      Reads last .sum ts e rest → (ahead last rest).kind ≠ .comma →
      expect .closeBracket last rest = .ok rest' → Reads last .operand (t :: u :: ts) (call f e) rest'

/-! ## Soundness -/

/-- What the parser accepts is read by the rules that it uses on shorter lists: lists of fewer than `n`
tokens. -/
structure Sound (ν : Type) [Scalar ν] (last : Token) (n : Nat) : Prop where
  sum : ∀ {ts : List Token} {r : Parsed ν ts.length}, ts.length < n → parseSum last ts = .ok r →
    Reads last .sum ts r.1.1 r.1.2
  sumTail : ∀ {left : Expr ν} {ts : List Token} {r : Parsed ν (ts.length + 1)}, ts.length < n →
    parseSumTail last left ts = .ok r → Reads last (.sumTail left) ts r.1.1 r.1.2
  product : ∀ {ts : List Token} {r : Parsed ν ts.length}, ts.length < n → parseProduct last ts = .ok r →
    Reads last .product ts r.1.1 r.1.2
  productTail : ∀ {left : Expr ν} {ts : List Token} {r : Parsed ν (ts.length + 1)}, ts.length < n →
    parseProductTail last left ts = .ok r → Reads last (.productTail left) ts r.1.1 r.1.2
  signed : ∀ {ts : List Token} {r : Parsed ν ts.length}, ts.length < n → parseSigned last ts = .ok r →
    Reads last .signed ts r.1.1 r.1.2

namespace Sound

variable {last : Token} {ts : List Token} {left : Expr ν} {n : Nat}

theorem reads_operand (h : Sound ν last ts.length) {r : Parsed ν ts.length}
    (hr : parseOperand last ts = .ok r) : Reads last .operand ts r.1.1 r.1.2 := by
  unfold parseOperand at hr
  split at hr
  · cases hr
  · next t rest =>
    split at hr
    · next hkind =>
      split at hr
      · next x hx =>
        cases hr
        exact .number hkind hx
      · cases hr
    · next hkind =>
      split at hr
      · cases hr
      · next e rest' hlt he =>
        split at hr
        · cases hr
        · next rest'' hclose =>
          cases hr
          exact .brackets hkind (h.sum (by simp) he) hclose
    · next hkind =>
      split at hr
      · next hname =>
        cases hr
        exact .symbol hkind hname
      · next f hname =>
        split at hr
        · cases hr
        · next u rest' =>
          split at hr
          · next hopen =>
            split at hr
            · cases hr
            · next e rest'' hlt he =>
              split at hr
              · cases hr
              · next hcomma =>
                split at hr
                · cases hr
                · next rest3 hclose =>
                  cases hr
                  have hinner := h.sum (Nat.lt_succ_of_lt (Nat.lt_succ_self _)) he
                  exact .call hkind hname hopen hinner hcomma hclose
          · cases hr
    · cases hr

theorem reads_power (h : Sound ν last ts.length) {r : Parsed ν ts.length}
    (hr : parsePower last ts = .ok r) : Reads last .power ts r.1.1 r.1.2 := by
  unfold parsePower at hr
  split at hr
  · cases hr
  · next base hlt hbase =>
    cases hr
    exact .base (h.reads_operand hbase) (by simp)
  · next base t rest hlt hbase =>
    dsimp only at hr
    split at hr
    · next hcaret =>
      split at hr
      · cases hr
      · next exponent rest' hlt' hexponent =>
        cases hr
        exact .raised (h.reads_operand hbase) hcaret
          (h.signed (Nat.lt_trans (Nat.lt_succ_self _) hlt) hexponent)
    · next hcaret =>
      cases hr
      exact .base (h.reads_operand hbase) (by simpa using hcaret)

theorem reads_signed (h : Sound ν last ts.length) {r : Parsed ν ts.length}
    (hr : parseSigned last ts = .ok r) : Reads last .signed ts r.1.1 r.1.2 := by
  unfold parseSigned at hr
  split at hr
  · cases hr
  · next t rest =>
    split at hr
    · next hminus =>
      split at hr
      · cases hr
      · next e rest' hlt he =>
        cases hr
        exact .minus hminus (h.signed (by simp) he)
    · next hminus =>
      split at hr
      · next hplus =>
        split at hr
        · cases hr
        · next e rest' hlt he =>
          cases hr
          exact .plus hplus (h.signed (by simp) he)
      · next hplus => exact .unsigned hminus hplus (h.reads_power hr)

theorem reads_productTail (h : Sound ν last ts.length) {r : Parsed ν (ts.length + 1)}
    (hr : parseProductTail last left ts = .ok r) : Reads last (.productTail left) ts r.1.1 r.1.2 := by
  unfold parseProductTail at hr
  split at hr
  · cases hr
    exact .productStop (by simp)
  · next t rest =>
    split at hr
    · next hop =>
      cases hr
      exact .productStop (by simpa using hop)
    · next op hop =>
      split at hr
      · cases hr
      · next right rest' hlt hright =>
        dsimp only at hr
        split at hr
        · cases hr
        · next e hlt' he =>
          cases hr
          exact .productMore hop (h.signed (by simp) hright)
            (h.productTail (Nat.lt_trans hlt (Nat.lt_succ_self _)) he)

theorem reads_product (h : Sound ν last ts.length) {r : Parsed ν ts.length}
    (hr : parseProduct last ts = .ok r) : Reads last .product ts r.1.1 r.1.2 := by
  unfold parseProduct at hr
  split at hr
  · cases hr
  · next left rest hlt hleft =>
    split at hr
    · cases hr
    · next e hlt' he =>
      cases hr
      exact .product (h.reads_signed hleft) (h.productTail hlt he)

theorem reads_sumTail (h : Sound ν last ts.length) {r : Parsed ν (ts.length + 1)}
    (hr : parseSumTail last left ts = .ok r) : Reads last (.sumTail left) ts r.1.1 r.1.2 := by
  unfold parseSumTail at hr
  split at hr
  · cases hr
    exact .sumStop (by simp)
  · next t rest =>
    split at hr
    · next hop =>
      cases hr
      exact .sumStop (by simpa using hop)
    · next op hop =>
      split at hr
      · cases hr
      · next right rest' hlt hright =>
        dsimp only at hr
        split at hr
        · cases hr
        · next e hlt' he =>
          cases hr
          exact .sumMore hop (h.product (by simp) hright)
            (h.sumTail (Nat.lt_trans hlt (Nat.lt_succ_self _)) he)

theorem reads_sum (h : Sound ν last ts.length) {r : Parsed ν ts.length}
    (hr : parseSum last ts = .ok r) : Reads last .sum ts r.1.1 r.1.2 := by
  unfold parseSum at hr
  split at hr
  · cases hr
  · next left rest hlt hleft =>
    split at hr
    · cases hr
    · next e hlt' he =>
      cases hr
      exact .sum (h.reads_product hleft) (h.sumTail hlt he)

end Sound

theorem sound (last : Token) (n : Nat) : Sound ν last n := by
  induction n with
  | zero => exact ⟨by simp, by simp, by simp, by simp, by simp⟩
  | succ n ih =>
      have shorter : ∀ {ts : List Token}, ts.length < n + 1 → Sound ν last ts.length := by
        intro ts hts
        have hle : ts.length ≤ n := Nat.le_of_lt_succ hts
        exact ⟨fun h ↦ ih.sum (Nat.lt_of_lt_of_le h hle), fun h ↦ ih.sumTail (Nat.lt_of_lt_of_le h hle),
          fun h ↦ ih.product (Nat.lt_of_lt_of_le h hle), fun h ↦ ih.productTail (Nat.lt_of_lt_of_le h hle),
          fun h ↦ ih.signed (Nat.lt_of_lt_of_le h hle)⟩
      exact ⟨fun h ↦ (shorter h).reads_sum, fun h ↦ (shorter h).reads_sumTail,
        fun h ↦ (shorter h).reads_product, fun h ↦ (shorter h).reads_productTail,
        fun h ↦ (shorter h).reads_signed⟩

/-- **What the parser accepts is read by the grammar.** -/
theorem reads_of_parseSum {last : Token} {ts : List Token} {r : Parsed ν ts.length}
    (h : parseSum last ts = .ok r) : Reads last .sum ts r.1.1 r.1.2 :=
  (sound last (ts.length + 1)).sum (Nat.lt_succ_self _) h

/-! ## Symbols -/

/-- How often a symbol occurs in what has been read to the left. -/
def Rule.count (s : String) : Rule ν → Nat
  | sumTail left => left.count s
  | productTail left => left.count s
  | _ => 0

theorem expect_subset {kind : Token.Kind} {last : Token} {ts rest : List Token}
    (h : expect kind last ts = .ok rest) : rest ⊆ ts := by
  unfold expect refuse at h
  split at h
  · cases h
    exact (List.tail_sublist ts).subset
  · cases h

theorem count_withMinus {s : String} {e : Expr ν} : (withMinus e).count s = e.count s := by
  cases e <;> rfl

/-- No rule leaves other tokens than it was given. -/
theorem Reads.subset {last : Token} {rule : Rule ν} {ts rest : List Token} {e : Expr ν}
    (h : Reads last rule ts e rest) : rest ⊆ ts := by
  induction h with
  | sum _ _ ihl ihr => exact List.Subset.trans ihr ihl
  | sumStop => exact List.Subset.refl _
  | sumMore _ _ _ ihl ihr => exact List.subset_cons_of_subset _ (List.Subset.trans ihr ihl)
  | product _ _ ihl ihr => exact List.Subset.trans ihr ihl
  | productStop => exact List.Subset.refl _
  | productMore _ _ _ ihl ihr => exact List.subset_cons_of_subset _ (List.Subset.trans ihr ihl)
  | minus _ _ ih => exact List.subset_cons_of_subset _ ih
  | plus _ _ ih => exact List.subset_cons_of_subset _ ih
  | unsigned _ _ _ ih => exact ih
  | base _ _ ih => exact ih
  | raised _ _ _ ihb ihe => exact List.Subset.trans ihe (List.Subset.trans (List.subset_cons_self _ _) ihb)
  | number => exact List.subset_cons_self _ _
  | symbol => exact List.subset_cons_self _ _
  | brackets _ _ hclose ih =>
      exact List.subset_cons_of_subset _ (List.Subset.trans (expect_subset hclose) ih)
  | call _ _ _ _ _ hclose ih =>
      exact List.subset_cons_of_subset _
        (List.subset_cons_of_subset _ (List.Subset.trans (expect_subset hclose) ih))

/-- The symbols of what has been read are identifiers among the tokens. -/
theorem Reads.exists_identifier {last : Token} {rule : Rule ν} {ts rest : List Token} {e : Expr ν}
    {s : String} (h : Reads last rule ts e rest) (hs : e.count s ≠ 0) :
    rule.count s ≠ 0 ∨ ∃ t ∈ ts, t.kind = .identifier ∧ t.text = s := by
  induction h with
  | sum hl _ ihl ihr =>
      rcases ihr hs with h | ⟨t, ht, h⟩
      · exact ihl h
      · exact .inr ⟨t, hl.subset ht, h⟩
  | sumStop => exact .inl hs
  | @sumMore _ _ _ _ op left right _ _ hr _ ihl ihr =>
      rcases ihr hs with h | ⟨t, ht, h⟩
      · by_cases hleft : left.count s = 0
        · have hright : right.count s ≠ 0 := by simpa [Rule.count, hleft] using h
          rcases ihl hright with h | ⟨t, ht, h⟩
          · exact absurd rfl h
          · exact .inr ⟨t, List.mem_cons_of_mem _ ht, h⟩
        · exact .inl hleft
      · exact .inr ⟨t, List.mem_cons_of_mem _ (hr.subset ht), h⟩
  | product hl _ ihl ihr =>
      rcases ihr hs with h | ⟨t, ht, h⟩
      · exact ihl h
      · exact .inr ⟨t, hl.subset ht, h⟩
  | productStop => exact .inl hs
  | @productMore _ _ _ _ op left right _ _ hr _ ihl ihr =>
      rcases ihr hs with h | ⟨t, ht, h⟩
      · by_cases hleft : left.count s = 0
        · have hright : right.count s ≠ 0 := by simpa [Rule.count, hleft] using h
          rcases ihl hright with h | ⟨t, ht, h⟩
          · exact absurd rfl h
          · exact .inr ⟨t, List.mem_cons_of_mem _ ht, h⟩
        · exact .inl hleft
      · exact .inr ⟨t, List.mem_cons_of_mem _ (hr.subset ht), h⟩
  | minus _ _ ih =>
      rw [count_withMinus] at hs
      exact (ih hs).imp_right fun ⟨t, ht, h⟩ ↦ ⟨t, List.mem_cons_of_mem _ ht, h⟩
  | plus _ _ ih => exact (ih hs).imp_right fun ⟨t, ht, h⟩ ↦ ⟨t, List.mem_cons_of_mem _ ht, h⟩
  | unsigned _ _ _ ih => exact ih hs
  | base _ _ ih => exact ih hs
  | @raised _ _ _ _ base _ hb _ _ ihb ihe =>
      by_cases hbase : base.count s = 0
      · rw [count_bin, hbase, Nat.zero_add] at hs
        rcases ihe hs with h | ⟨t, ht, h⟩
        · exact .inl h
        · exact .inr ⟨t, hb.subset (List.mem_cons_of_mem _ ht), h⟩
      · exact ihb hbase
  | number => exact absurd rfl hs
  | @symbol t _ hkind _ =>
      refine .inr ⟨t, List.mem_cons_self, hkind, ?_⟩
      by_contra hts
      exact hs (if_neg hts)
  | brackets _ _ _ ih =>
      rcases ih hs with h | ⟨t, ht, h⟩
      · exact absurd rfl h
      · exact .inr ⟨t, List.mem_cons_of_mem _ ht, h⟩
  | call _ _ _ _ _ _ ih =>
      rcases ih hs with h | ⟨t, ht, h⟩
      · exact absurd rfl h
      · exact .inr ⟨t, List.mem_cons_of_mem _ (List.mem_cons_of_mem _ ht), h⟩

end FormulaNet.Expr

namespace FormulaNet.Equation

open FormulaNet.Expr

variable {ν : Type} [Scalar ν]

/-- The sides of an equation are sums with a sign of equality between them. -/
theorem reads_of_ofTokens {ts : List Token} {q : Equation ν} (h : ofTokens ts = .ok q) :
    ∃ last rest rest' rest'', Reads last .sum ts q.lhs rest ∧ expect .equals last rest = .ok rest' ∧
      Reads last .sum rest' q.rhs rest'' := by
  unfold ofTokens at h
  split at h
  · cases h
  · next last _ =>
    obtain ⟨⟨⟨lhs, rest⟩, hlt⟩, hl, h⟩ := bind_eq_ok_iff.mp h
    obtain ⟨rest', hexpect, h⟩ := bind_eq_ok_iff.mp h
    obtain ⟨⟨⟨rhs, rest''⟩, hlt'⟩, hr, h⟩ := bind_eq_ok_iff.mp h
    dsimp only at hl hexpect hr h
    have hq : q = ⟨lhs, rhs⟩ := by
      unfold finish refuse at h
      split at h
      · cases h
        rfl
      · cases h
    subst hq
    exact ⟨last, rest, rest', rest'', reads_of_parseSum hl, hexpect, reads_of_parseSum hr⟩

/-- The symbols of an equation are identifiers among its tokens. -/
theorem exists_identifier {ts : List Token} {q : Equation ν} (h : ofTokens ts = .ok q) {s : String}
    (hs : q.lhs.count s ≠ 0 ∨ q.rhs.count s ≠ 0) : ∃ t ∈ ts, t.kind = .identifier ∧ t.text = s := by
  obtain ⟨last, rest, rest', rest'', hl, hexpect, hr⟩ := reads_of_ofTokens h
  rcases hs with hs | hs
  · exact (hl.exists_identifier hs).resolve_left (absurd rfl)
  · obtain ⟨t, ht, hkind⟩ := (hr.exists_identifier hs).resolve_left (absurd rfl)
    exact ⟨t, hl.subset (expect_subset hexpect ht), hkind⟩

end FormulaNet.Equation

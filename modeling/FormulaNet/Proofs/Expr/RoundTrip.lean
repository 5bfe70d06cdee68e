import FormulaNet.Proofs.Decimal.Value
import FormulaNet.Proofs.Expr.Equivalence
import FormulaNet.Proofs.Expr.Grammar
import FormulaNet.Proofs.Token.Scan
import Mathlib.Data.List.Chain

/-!
# Reading what was printed

The print of an expression over a vocabulary is read back as an equivalent expression.  Brackets are
printed so that the text writes the tree; only a right operand of a sum or a product that binds like its
operator has none, and is regrouped to the left, and a minus before a literal becomes part of it.  Where
neither happens the tree itself comes back.

The proof goes along the tree.  A text shows an expression as a part of the grammar if, wherever it
stands, it is scanned into tokens that write, as that part, what the expression is read back as; the print
of an expression shows it as every part that binds no tighter than it does.
-/

namespace FormulaNet

open Token (Ends IsIdentifier Scans impliesProduct)

/-- The kind of token that writes an operator. -/
def Operator.kind : Operator → Token.Kind
  | add => .plus
  | sub => .minus
  | mul => .star
  | div => .slash
  | pow => .caret

/-- The symbols are identifiers, and no names of functions. -/
def Vocabulary.Proper (v : Vocabulary) : Prop :=
  ∀ s ∈ v.symbols, IsIdentifier s ∧ Function.ofName? s = none

/-- A number that is written in full, after a minus if it is negative, and read back. -/
structure Scalar.Legible {ν : Type} [Scalar ν] (x : ν) : Prop where
  exists_isPlain : ∃ cs, Numeral.IsPlain cs ∧
    (Scalar.text x).toList = if Scalar.isNegative x then '-' :: cs else cs
  read?_text : Scalar.read? (Scalar.text x) = some x

namespace Expr

variable {ν : Type} [Scalar ν] {v : Vocabulary}

/-- The symbols are those of the vocabulary and `pi`, and the literals are legible. -/
def Legible (v : Vocabulary) : Expr ν → Prop
  | num x => Scalar.Legible x
  | sym s => s ∈ v.symbols ∨ s = "pi"
  | neg e => e.Legible v
  | bin _ l r => l.Legible v ∧ r.Legible v
  | call _ e => e.Legible v

/-- No right operand of a sum or a product binds like its operator, and no negation stands on a literal. -/
def Canonical : Expr ν → Prop
  | num _ => True
  | sym _ => True
  | neg e => (∀ x, e ≠ num x) ∧ e.Canonical
  | bin op l r => (op = .add ∨ op = .mul → r.rank ≠ op.rank) ∧ l.Canonical ∧ r.Canonical
  | call _ e => e.Canonical

/-! ## Parts of the grammar -/

/-- How tightly a part binds. -/
def Part.rank : Part → Nat
  | sum => 1
  | product => 2
  | signed => 3
  | power => 4
  | operand => 5

end Expr

namespace Operator

open FormulaNet.Expr (Part)

/-- The part of the grammar that an operation is. -/
def part : Operator → Part
  | add | sub => .sum
  | mul | div => .product
  | pow => .power

/-- The part that stands to the left of the operator. -/
def leftPart : Operator → Part
  | add | sub => .sum
  | mul | div => .product
  | pow => .operand

/-- The part that stands to the right of the operator. -/
def rightPart : Operator → Part
  | add | sub => .product
  | mul | div | pow => .signed

end Operator

namespace Expr

variable {ν : Type} [Scalar ν] {v : Vocabulary}

variable {p q part : Part} {ls rs ts : List Token} {t u : Token} {e e' l r : Expr ν} {op : Operator}

/-- What is written as a part is written as every part that binds no tighter. -/
theorem Writes.loosen (h : Writes p ts e) (hq : q.rank ≤ p.rank) : Writes q ts e := by
  have hpower : 4 ≤ p.rank → Writes .power ts e := by
    cases p with
    | operand => exact fun _ ↦ .operand h
    | power => exact fun _ ↦ h
    | sum | product | signed => exact fun h ↦ absurd h (by decide)
  have hsigned : 3 ≤ p.rank → Writes .signed ts e := by
    cases p with
    | operand | power => exact fun _ ↦ .power (hpower (by decide))
    | signed => exact fun _ ↦ h
    | sum | product => exact fun h ↦ absurd h (by decide)
  have hproduct : 2 ≤ p.rank → Writes .product ts e := by
    cases p with
    | operand | power | signed => exact fun _ ↦ .signed (hsigned (by decide))
    | product => exact fun _ ↦ h
    | sum => exact fun h ↦ absurd h (by decide)
  cases q with
  | sum =>
      cases p with
      | sum => exact h
      | product | signed | power | operand => exact .product (hproduct (by decide))
  | product => exact hproduct hq
  | signed => exact hsigned hq
  | power => exact hpower hq
  | operand =>
      cases p with
      | operand => exact h
      | sum | product | signed | power => exact absurd hq (by decide)

/-! ### Regrouping -/

theorem rank_of_sumOperator? {kind : Token.Kind} (h : sumOperator? kind = some op) : op.rank = 1 := by
  rcases kind_of_sumOperator? h with rfl | rfl <;> cases h <;> rfl

theorem rank_of_productOperator? {kind : Token.Kind} (h : productOperator? kind = some op) : op.rank = 2 := by
  rcases kind_of_productOperator? h with rfl | rfl <;> cases h <;> rfl

/-- A sum after a plus is added from left to right. -/
theorem Writes.exists_sum (hl : Writes .sum ls l) (ht : t.kind = .plus) (hr : Writes .sum rs r) :
    ∃ e, Writes .sum (ls ++ t :: rs) e ∧ Equivalent e (bin .add l r) := by
  generalize hp : Part.sum = p at hr
  induction hr with
  | product h => exact ⟨_, .sum hl (by simp [ht, sumOperator?]) h, .refl _⟩
  | @sum _ _ _ op l' r' _ hop hr' ih _ =>
      obtain ⟨e, he, hequivalent⟩ := ih rfl
      refine ⟨bin op e r', by simpa using he.sum hop hr', ?_⟩
      exact (hequivalent.bin (.refl r')).trans (.regroup (.inl rfl) (rank_of_sumOperator? hop) l l' r')
  | _ => cases hp

/-- A product after a star is multiplied from left to right. -/
theorem Writes.exists_product (hl : Writes .product ls l) (ht : t.kind = .star) (hr : Writes .product rs r) :
    ∃ e, Writes .product (ls ++ t :: rs) e ∧ Equivalent e (bin .mul l r) := by
  generalize hp : Part.product = p at hr
  induction hr with
  | signed h => exact ⟨_, .factor hl (by simp [ht, productOperator?]) h, .refl _⟩
  | @factor _ _ _ op l' r' _ hop hr' ih _ =>
      obtain ⟨e, he, hequivalent⟩ := ih rfl
      refine ⟨bin op e r', by simpa using he.factor hop hr', ?_⟩
      exact (hequivalent.bin (.refl r')).trans (.regroup (.inr rfl) (rank_of_productOperator? hop) l l' r')
  | _ => cases hp

/-! ### Neighbours -/

theorem impliesProduct_of_endsOperand (h : t.endsOperand = false) : impliesProduct t u = false := by
  simp [impliesProduct, h]

theorem impliesProduct_of_startsOperand (h : u.startsOperand = false) : impliesProduct t u = false := by
  simp [impliesProduct, h]

/-- No two neighbours imply a product. -/
def Explicit (ts : List Token) : Prop := ts.IsChain fun t u ↦ impliesProduct t u = false

theorem Explicit.append_cons (hl : Explicit ls) (hr : Explicit rs) (hends : t.endsOperand = false)
    (hstarts : t.startsOperand = false) : Explicit (ls ++ t :: rs) := by
  refine List.isChain_append.mpr ⟨hl, List.isChain_cons.mpr ⟨?_, hr⟩, ?_⟩
  · exact fun u _ ↦ impliesProduct_of_endsOperand hends
  · intro a _ b hb
    cases hb
    exact impliesProduct_of_startsOperand hstarts

theorem Explicit.brackets (h : Explicit ts) (ht : t.kind = .openBracket) (hu : u.kind = .closeBracket) :
    Explicit (t :: (ts ++ [u])) := by
  refine List.isChain_cons.mpr ⟨fun u _ ↦ ?_, List.isChain_append.mpr ⟨h, List.isChain_singleton u, ?_⟩⟩
  · exact impliesProduct_of_endsOperand (by simp [Token.endsOperand, ht])
  · intro a _ b hb
    cases hb
    exact impliesProduct_of_startsOperand (by simp [Token.startsOperand, hu])

theorem Writes.explicit (h : Writes p ts e) : Explicit ts := by
  induction h with
  | product _ ih | signed _ ih | power _ ih | operand _ ih => exact ih
  | sum _ hop _ ihl ihr =>
      rcases kind_of_sumOperator? hop with hkind | hkind <;>
        exact ihl.append_cons ihr (by simp [Token.endsOperand, hkind]) (by simp [Token.startsOperand, hkind])
  | factor _ hop _ ihl ihr =>
      rcases kind_of_productOperator? hop with hkind | hkind <;>
        exact ihl.append_cons ihr (by simp [Token.endsOperand, hkind]) (by simp [Token.startsOperand, hkind])
  | minus hkind _ ih | plus hkind _ ih =>
      refine List.isChain_cons.mpr ⟨fun u _ ↦ ?_, ih⟩
      exact impliesProduct_of_endsOperand (by simp [Token.endsOperand, hkind])
  | raised _ hkind _ ihb ihe =>
      exact ihb.append_cons ihe (by simp [Token.endsOperand, hkind]) (by simp [Token.startsOperand, hkind])
  | number | symbol => exact List.isChain_singleton _
  | brackets hkind _ hu ih => exact ih.brackets hkind hu
  | call hkind hname hopen _ hu ih =>
      refine List.isChain_cons.mpr ⟨?_, ih.brackets hopen hu⟩
      intro b hb
      cases hb
      simp [impliesProduct, Token.isCall, hkind, hname, hopen]

/-! ## Texts that show an expression -/

/-- The tokens write an expression that is equivalent to `e`, and is `e` if that is canonical; their
identifiers are known. -/
structure Restores (v : Vocabulary) (part : Part) (ts : List Token) (e e' : Expr ν) : Prop where
  writes : Writes part ts e'
  known : ∀ t ∈ ts, t.kind = .identifier → v.contains t.text = true
  equivalent : Equivalent e' e
  eq_of_canonical : e.Canonical → e' = e

/-- Wherever the text stands, it is scanned into tokens that restore the expression. -/
def Shows (v : Vocabulary) (part : Part) (cs : List Char) (e : Expr ν) : Prop :=
  ∀ position rest, Ends rest →
    ∃ ts next e', Scans position (cs ++ rest) ts next rest ∧ Restores v part ts e e'

variable {cs ds : List Char}

theorem Shows.loosen (h : Shows v p cs e) (hq : q.rank ≤ p.rank) : Shows v q cs e := by
  intro position rest hrest
  obtain ⟨ts, next, e', hscan, hrestores⟩ := h position rest hrest
  exact ⟨ts, next, e', hscan, { hrestores with writes := hrestores.writes.loosen hq }⟩

theorem shows_sym {s : String} (hv : v.Proper) (hs : s ∈ v.symbols ∨ s = "pi") :
    Shows v .operand s.toList (sym s : Expr ν) := by
  have hword : IsIdentifier s ∧ Function.ofName? s = none := by
    rcases hs with hs | rfl
    · exact hv s hs
    · exact ⟨⟨'p', ['i'], rfl, rfl, List.all_eq_true.mp rfl⟩, rfl⟩
  intro position rest hrest
  obtain ⟨t, next, hkind, rfl, hscan⟩ := Token.scans_word position hword.1 hrest
  refine ⟨[t], next, sym t.text, hscan, .symbol hkind hword.2, ?_, .refl _, fun _ ↦ rfl⟩
  intro u hu _
  obtain rfl := List.mem_singleton.mp hu
  rcases hs with hs | hs <;> simp [Vocabulary.contains, hs]

theorem shows_num {x : ν} (hx : Scalar.Legible x) :
    Shows v (if Scalar.isNegative x then .signed else .operand) (Scalar.text x).toList (num x) := by
  obtain ⟨cs, hplain, htext⟩ := hx.exists_isPlain
  obtain ⟨y, hy, hminus⟩ := Scalar.exists_read?_of_isPlain (ν := ν) hplain
  intro position rest hrest
  have hread := hx.read?_text
  rw [← String.ofList_toList (s := Scalar.text x), htext] at hread
  rw [htext]
  split
  · next hnegative =>
    rw [if_pos hnegative, hminus] at hread
    obtain rfl := Option.some.inj hread
    obtain ⟨t, ht, hsign⟩ := Token.scans_minus position (cs ++ rest)
    obtain ⟨u, next, hu, hutext, hnumber⟩ := Token.scans_number (position + 1) hplain hrest
    have hwrites : Writes .signed [t, u] (withMinus (num y)) :=
      .minus ht (.power (.operand (.number hu (by rw [hutext, hy]))))
    exact ⟨[t] ++ [u], next, num (-y), hsign.trans hnumber, hwrites, by simp [ht, hu], .refl _, fun _ ↦ rfl⟩
  · next hnegative =>
    rw [if_neg hnegative, hy] at hread
    obtain rfl := Option.some.inj hread
    obtain ⟨u, next, hu, hutext, hnumber⟩ := Token.scans_number position hplain hrest
    exact ⟨[u], next, num y, hnumber, .number hu (by rw [hutext, hy]), by simp [hu], .refl _, fun _ ↦ rfl⟩

theorem Shows.brackets (h : Shows v .sum cs e) : Shows v .operand ('(' :: (cs ++ [')'])) e := by
  intro position rest _
  obtain ⟨t, ht, hopen⟩ := Token.scans_openBracket position (cs ++ ')' :: rest)
  obtain ⟨ts, next, e', hscan, hrestores⟩ := h (position + 1) (')' :: rest) (by simp [Ends])
  obtain ⟨u, hu, hclose⟩ := Token.scans_closeBracket next rest
  refine ⟨[t] ++ ts ++ [u], next + 1, e', ?_, ?_⟩
  · simpa using (hopen.trans hscan).trans hclose
  · refine { hrestores with writes := .brackets ht hrestores.writes hu, known := ?_ }
    intro w hw hkind
    simp only [List.mem_append, List.mem_singleton] at hw
    rcases hw with (rfl | hw) | rfl
    · simp [ht] at hkind
    · exact hrestores.known w hw hkind
    · simp [hu] at hkind

/-- An operand in brackets, or without them where it binds tightly enough. -/
theorem Shows.bracketed {brackets : Bool} {text : String}
    (h : ∀ q : Part, q.rank ≤ e.rank → Shows v q text.toList e) (hp : brackets = false → p.rank ≤ e.rank)
    (he : 1 ≤ e.rank) : Shows v p (Expr.bracketed brackets text).toList e := by
  cases brackets with
  | false => exact h p (hp rfl)
  | true =>
      have hbrackets := (h .sum he).brackets.loosen (q := p) (by cases p <;> decide)
      simpa using hbrackets

theorem equivalent_withMinus (e : Expr ν) : Equivalent (withMinus e) (neg e) := by
  cases e with
  | num x => exact .num_neg x
  | sym | neg | bin | call => exact .refl _

theorem Shows.neg (h : Shows v .signed cs e) : Shows v .signed ('-' :: cs) (neg e) := by
  intro position rest hrest
  obtain ⟨t, ht, hsign⟩ := Token.scans_minus position (cs ++ rest)
  obtain ⟨ts, next, e', hscan, hrestores⟩ := h (position + 1) rest hrest
  refine ⟨[t] ++ ts, next, withMinus e', hsign.trans hscan, .minus ht hrestores.writes, ?_, ?_, ?_⟩
  · intro w hw hkind
    rcases List.mem_cons.mp hw with rfl | hw
    · simp [ht] at hkind
    · exact hrestores.known w hw hkind
  · exact (equivalent_withMinus e').trans hrestores.equivalent.neg
  · rintro ⟨hliteral, hcanonical⟩
    rw [hrestores.eq_of_canonical hcanonical]
    cases e with
    | num x => exact absurd rfl (hliteral x)
    | sym | neg | bin | call => rfl

theorem isIdentifier_name (f : Function) : IsIdentifier f.name := by
  cases f <;> exact ⟨_, _, rfl, rfl, List.all_eq_true.mp rfl⟩

theorem Shows.call {f : Function} (h : Shows v .sum cs e) :
    Shows v .operand (f.name.toList ++ '(' :: (cs ++ [')'])) (call f e) := by
  intro position rest _
  have hends : Ends ('(' :: (cs ++ ')' :: rest)) := by simp [Ends]
  obtain ⟨n, next, hn, hname, hword⟩ := Token.scans_word position (isIdentifier_name f) hends
  obtain ⟨t, ht, hopen⟩ := Token.scans_openBracket next (cs ++ ')' :: rest)
  obtain ⟨ts, next', e', hscan, hrestores⟩ := h (next + 1) (')' :: rest) (by simp [Ends])
  obtain ⟨u, hu, hclose⟩ := Token.scans_closeBracket next' rest
  refine ⟨[n] ++ [t] ++ ts ++ [u], next' + 1, .call f e', ?_, ?_, ?_, hrestores.equivalent.call, ?_⟩
  · simpa using ((hword.trans hopen).trans hscan).trans hclose
  · exact .call hn (by rw [hname, Function.ofName?_name]) ht hrestores.writes hu
  · intro w hw hkind
    simp only [List.mem_append, List.mem_singleton] at hw
    rcases hw with ((rfl | rfl) | hw) | rfl
    · simp [Vocabulary.contains, hname]
    · simp [ht] at hkind
    · exact hrestores.known w hw hkind
    · simp [hu] at hkind
  · exact fun hcanonical ↦ congrArg _ (hrestores.eq_of_canonical hcanonical)

/-! ### Operations -/

theorem scans_sign (op : Operator) (position : Nat) (cs : List Char) : ∃ t : Token, t.kind = op.kind ∧
    Scans position (op.sign.toList ++ ' ' :: cs) [t] (position + 1) (' ' :: cs) := by
  cases op <;> exact Token.scans_mark (by decide) (by simp)

/-- An operation is shown by its operands around the sign, if their tokens around the mark write it. -/
theorem Shows.bin (hl : Shows v p cs l) (hr : Shows v q ds r)
    (hwrites : ∀ {ls rs : List Token} {t : Token} {l' r' : Expr ν}, t.kind = op.kind → Writes p ls l' →
      Writes q rs r' → ∃ e', Writes part (ls ++ t :: rs) e' ∧ Equivalent e' (bin op l' r') ∧
        ((bin op l r).Canonical → e' = bin op l' r')) :
    Shows v part (cs ++ ' ' :: (op.sign.toList ++ ' ' :: ds)) (bin op l r) := by
  intro position rest hrest
  obtain ⟨ls, next, l', hscan, hrestores⟩ := hl position (' ' :: (op.sign.toList ++ ' ' :: (ds ++ rest)))
    (by simp [Ends])
  obtain ⟨t, ht, hsign⟩ := scans_sign op (next + 1) (ds ++ rest)
  obtain ⟨rs, next', r', hscan', hrestores'⟩ := hr (next + 1 + 1 + 1) rest hrest
  obtain ⟨e', he', hequivalent, hcanonical⟩ := hwrites ht hrestores.writes hrestores'.writes
  refine ⟨ls ++ t :: rs, next', e', ?_, he', ?_, ?_, ?_⟩
  · simpa using (((hscan.trans Token.scans_blank).trans hsign).trans Token.scans_blank).trans hscan'
  · intro w hw hkind
    simp only [List.mem_append, List.mem_cons] at hw
    rcases hw with hw | rfl | hw
    · exact hrestores.known w hw hkind
    · rw [ht] at hkind
      cases op <;> cases hkind
    · exact hrestores'.known w hw hkind
  · exact hequivalent.trans (hrestores.equivalent.bin hrestores'.equivalent)
  · intro h
    rw [hcanonical h, hrestores.eq_of_canonical h.2.1, hrestores'.eq_of_canonical h.2.2]

theorem one_le_rank (e : Expr ν) : 1 ≤ e.rank := by
  cases e with
  | num x =>
      rw [rank]
      split <;> decide
  | bin op l r => cases op <;> exact Nat.le_of_ble_eq_true rfl
  | sym | neg | call => exact Nat.le_of_ble_eq_true rfl

theorem rank_num (x : ν) :
    (num x).rank = (if Scalar.isNegative x then Part.signed else Part.operand).rank := by
  rw [rank]
  split <;> rfl

/-- The tokens of an operation, if the tokens of its operands write the parts that stand beside its mark. -/
theorem Writes.bin (hl : Writes op.leftPart ls l) (ht : t.kind = op.kind) (hr : Writes op.rightPart rs r) :
    Writes op.part (ls ++ t :: rs) (bin op l r) := by
  cases op with
  | add | sub => exact .sum hl (by rw [ht]; rfl) hr
  | mul | div => exact .factor hl (by rw [ht]; rfl) hr
  | pow => exact .raised hl ht hr

/-- The tokens of a sum or a product whose right operand is one too write it regrouped. -/
theorem Writes.exists_regrouped (hop : op = .add ∨ op = .mul) (hl : Writes op.leftPart ls l)
    (ht : t.kind = op.kind) (hr : Writes op.part rs r) :
    ∃ e, Writes op.part (ls ++ t :: rs) e ∧ Equivalent e (Expr.bin op l r) := by
  rcases hop with rfl | rfl
  · exact hl.exists_sum ht hr
  · exact hl.exists_product ht hr

theorem rank_leftPart_le (h : bracketsLeft op l = false) : op.leftPart.rank ≤ l.rank := by
  simp only [bracketsLeft, Bool.or_eq_false_iff, Bool.and_eq_false_imp, decide_eq_true_iff,
    decide_eq_false_iff_not, Nat.not_lt, Nat.not_le] at h
  cases op with
  | add | sub | mul | div => exact h.1
  | pow => exact h.2 rfl

/-- A right operand without brackets is a part that stands there, unless it binds like a sum or a product
that it is in. -/
theorem rank_rightPart_le (h : bracketsRight op r = false)
    (hregroup : ¬((op = .add ∨ op = .mul) ∧ r.rank = op.rank)) : op.rightPart.rank ≤ r.rank := by
  simp only [bracketsRight, Bool.or_eq_false_iff, Bool.and_eq_false_imp, decide_eq_true_iff,
    decide_eq_false_iff_not, Nat.not_lt] at h
  obtain ⟨hlow, hsame⟩ := h
  have hlt : op ≠ .pow → op.rank < r.rank := by
    intro hpow
    refine Nat.lt_of_le_of_ne hlow fun heq ↦ ?_
    cases op with
    | add => exact hregroup ⟨.inl rfl, heq.symm⟩
    | mul => exact hregroup ⟨.inr rfl, heq.symm⟩
    | sub | div => cases hsame heq.symm
    | pow => exact hpow rfl
  cases op with
  | add | sub | mul | div => exact hlt (by simp)
  | pow => exact Nat.le_of_succ_le hlow

/-- **The print of an expression shows it**, as every part of the grammar that binds no tighter. -/
theorem shows_print (hv : v.Proper) (he : e.Legible v) :
    ∀ q : Part, q.rank ≤ e.rank → Shows v q e.print.toList e := by
  induction e with
  | num x =>
      intro q hq
      rw [rank_num] at hq
      exact (shows_num he).loosen hq
  | sym s => exact fun q hq ↦ (shows_sym hv he).loosen hq
  | neg e ih =>
      intro q hq
      have hoperand : Shows v .signed (bracketed (e.rank ≤ 3) e.print).toList e := by
        refine .bracketed (ih he) (fun h ↦ ?_) (one_le_rank e)
        exact Nat.le_of_lt (Nat.lt_of_not_le (of_decide_eq_false h))
      simpa [print] using hoperand.neg.loosen hq
  | bin op l r ihl ihr =>
      intro q hq
      have hl : Shows v op.leftPart (bracketed (bracketsLeft op l) l.print).toList l :=
        .bracketed (ihl he.1) rank_leftPart_le (one_le_rank l)
      have hr : ∀ q : Part, (bracketsRight op r = false → q.rank ≤ r.rank) →
          Shows v q (bracketed (bracketsRight op r) r.print).toList r :=
        fun q hq ↦ .bracketed (ihr he.2) hq (one_le_rank r)
      suffices h : Shows v op.part _ (bin op l r) by
        simpa [print] using h.loosen (q := q) (by cases op <;> exact hq)
      by_cases hregroup : (op = .add ∨ op = .mul) ∧ r.rank = op.rank
      · -- the right operand has no brackets though it binds like the operator, and is regrouped
        have hr := hr op.part fun _ ↦ Nat.le_of_eq (by cases op <;> exact hregroup.2.symm)
        refine hl.bin hr fun ht hl hr ↦ ?_
        obtain ⟨e', he', hequivalent⟩ := hl.exists_regrouped hregroup.1 ht hr
        exact ⟨e', he', hequivalent, fun hcanonical ↦ absurd hregroup.2 (hcanonical.1 hregroup.1)⟩
      · have hr := hr op.rightPart fun h ↦ rank_rightPart_le h hregroup
        exact hl.bin hr fun ht hl hr ↦ ⟨_, hl.bin ht hr, .refl _, fun _ ↦ rfl⟩
  | call f e ih =>
      intro q hq
      simpa [print] using (ih he .sum (one_le_rank e)).call.loosen hq

/-! ## Reading back -/

theorem scan_nil (position : Nat) : ∃ stop : Token, stop.kind = .stop ∧ Token.scan position [] = .ok [stop] :=
  ⟨_, rfl, by rw [Token.scan]⟩

/-- A text that shows an expression is parsed to an equivalent one. -/
theorem Shows.parse {text : String} (h : Shows v .sum text.toList e) :
    ∃ e', Expr.parse v text = .ok e' ∧ Equivalent e' e ∧ (e.Canonical → e' = e) := by
  obtain ⟨ts, next, e', hscan, hrestores⟩ := h 0 [] (by simp [Ends])
  obtain ⟨stop, hstop, hend⟩ := scan_nil next
  have hbody := hrestores.writes.kind_ne_stop
  have htokens : Token.tokenize v text = .ok (ts ++ [stop]) := by
    have hknown : ∀ t ∈ ts ++ [stop], t.kind = .identifier → v.contains t.text = true := by
      intro t ht hkind
      rcases List.mem_append.mp ht with ht | ht
      · exact hrestores.known t ht hkind
      · obtain rfl := List.mem_singleton.mp ht
        simp [hstop] at hkind
    have hexplicit : Explicit (ts ++ [stop]) := hrestores.writes.explicit.append_cons .nil
      (by simp [Token.endsOperand, hstop]) (by simp [Token.startsOperand, hstop])
    rw [List.append_nil] at hscan
    rw [Token.tokenize, hscan, hend]
    simp only [Except.map, Token.splitWords_eq_self hknown, Token.insertProducts_eq_self hexplicit]
  refine ⟨e', ?_, hrestores.equivalent, hrestores.eq_of_canonical⟩
  rw [Expr.parse, htokens]
  exact (ofTokens_eq_ok_iff hstop hbody).mpr hrestores.writes

/-- **What is printed is read back.**  The print of an expression over a vocabulary of identifiers, with
literals that are written in full, is parsed under that vocabulary.  The parsed expression evaluates like
the printed one in every exact arithmetic, and is the same tree unless a right operand was regrouped or a
negation merged into a literal. -/
theorem parse_print (v : Vocabulary) (hv : v.Proper) (e : Expr ν) (he : e.Legible v) :
    ∃ e', parse v e.print = .ok e' ∧
      (∀ (κ : Type) [Scalar.Lawful κ] (φ : ν → κ), (∀ x, φ (-x) = -φ x) → ∀ env : Bindings κ,
        outcome env (e'.map φ) = outcome env (e.map φ)) ∧
      (e.Canonical → e' = e) := by
  obtain ⟨e', hparse, hequivalent, hcanonical⟩ := (shows_print hv he .sum (one_le_rank e)).parse
  exact ⟨e', hparse, fun κ _ φ hφ env ↦ outcome_congr (hequivalent κ φ hφ env), hcanonical⟩

/-- Doubles with their exact values: a product in a product, from which a negative literal is taken. -/
theorem parse_print_regrouped :
    let v := Vocabulary.ofList ["m", "v0"]
    let e : Expr Float := sym "m" * (sym "v0" * num 2.5) - num (-4)
    v.Proper ∧ e.Legible v ∧ e.print = "m * v0 * 2.5 - -4" ∧
      ∃ e', parse v "m * v0 * 2.5 - -4" = .ok e' ∧ ∀ env : Bindings ℚ,
        outcome env (e'.map fun x ↦ (Binary64.ofFloat x).value) =
          outcome env (e.map fun x ↦ (Binary64.ofFloat x).value) := by
  intro v e
  have hv : v.Proper := by
    have hsymbols : v.symbols = ["v0", "m"] := by decide
    have hmass : IsIdentifier "m" := ⟨'m', [], rfl, rfl, List.all_eq_true.mp rfl⟩
    have hspeed : IsIdentifier "v0" := ⟨'v', ['0'], rfl, rfl, List.all_eq_true.mp rfl⟩
    rw [Vocabulary.Proper, hsymbols]
    exact List.forall_mem_cons.mpr ⟨⟨hspeed, by decide⟩, List.forall_mem_singleton.mpr ⟨hmass, by decide⟩⟩
  have he : e.Legible v := by
    refine ⟨⟨?_, ?_, ?_⟩, ?_⟩
    · exact .inl (by decide)
    · exact .inl (by decide)
    · have hplain : Numeral.IsPlain (['2'] ++ '.' :: ['5']) := .fraction rfl rfl
      exact ⟨⟨_, hplain, by decide +kernel⟩, by decide +kernel⟩
    · exact ⟨⟨['4'], .whole rfl, by decide +kernel⟩, by decide +kernel⟩
  have hprint : e.print = "m * v0 * 2.5 - -4" := by decide +kernel
  obtain ⟨e', hparse, houtcome, -⟩ := parse_print v hv e he
  exact ⟨hv, he, hprint, e', hprint ▸ hparse,
    @houtcome ℚ (Scalar.Exact.toLawful ℚ) _ Binary64.value_ofFloat_neg⟩

end Expr

end FormulaNet

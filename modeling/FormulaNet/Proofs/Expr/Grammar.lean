import FormulaNet.Proofs.Expr.Parser
import FormulaNet.Proofs.Exact

/-!
# The grammar

`Writes` says which tokens write an expression, with nothing about how they are read: sums and products
are left recursive, and no rule looks ahead.  The parser accepts just what is written, with the tree that
the grammar gives, so no list of tokens writes two trees.

Between the two stands `Reads`.  What is read off the front of a list is written there.  The other way
round, what is written is read when the token after it does not go on with it; a sum or a product is read
by its tail, and so is taken with whatever the tail makes of the tokens after it.
-/

namespace FormulaNet.Expr

variable {ν : Type} [Scalar ν]

/-- The parts of the grammar, loosest first. -/
inductive Part where
  | sum | product | signed | power | operand

/-- Tokens that write an expression as some part of the grammar. -/
inductive Writes : Part → List Token → Expr ν → Prop
  | product {ts : List Token} {e : Expr ν} : Writes .product ts e → Writes .sum ts e
  | sum {ls rs : List Token} {t : Token} {op : Operator} {l r : Expr ν} :
      Writes .sum ls l → sumOperator? t.kind = some op → Writes .product rs r →
      Writes .sum (ls ++ t :: rs) (bin op l r)
  | signed {ts : List Token} {e : Expr ν} : Writes .signed ts e → Writes .product ts e
  | factor {ls rs : List Token} {t : Token} {op : Operator} {l r : Expr ν} :
      Writes .product ls l → productOperator? t.kind = some op → Writes .signed rs r →
      Writes .product (ls ++ t :: rs) (bin op l r)
  | minus {t : Token} {ts : List Token} {e : Expr ν} :
      t.kind = .minus → Writes .signed ts e → Writes .signed (t :: ts) (withMinus e)
  | plus {t : Token} {ts : List Token} {e : Expr ν} :
      t.kind = .plus → Writes .signed ts e → Writes .signed (t :: ts) e
  | power {ts : List Token} {e : Expr ν} : Writes .power ts e → Writes .signed ts e
  | operand {ts : List Token} {e : Expr ν} : Writes .operand ts e → Writes .power ts e
  | raised {bs es : List Token} {t : Token} {b e : Expr ν} :
      Writes .operand bs b → t.kind = .caret → Writes .signed es e →
      Writes .power (bs ++ t :: es) (bin .pow b e)
  | number {t : Token} {x : ν} :
      t.kind = .number → Scalar.read? t.text = some x → Writes .operand [t] (num x)
  | symbol {t : Token} :
      t.kind = .identifier → Function.ofName? t.text = none → Writes .operand [t] (sym t.text)
  | brackets {t u : Token} {ts : List Token} {e : Expr ν} :
      t.kind = .openBracket → Writes .sum ts e → u.kind = .closeBracket →
      Writes .operand (t :: (ts ++ [u])) e
  | call {n t u : Token} {ts : List Token} {f : Function} {e : Expr ν} :
      n.kind = .identifier → Function.ofName? n.text = some f → t.kind = .openBracket →
      Writes .sum ts e → u.kind = .closeBracket → Writes .operand (n :: t :: (ts ++ [u])) (call f e)

variable {last t : Token} {part : Part} {ts ws rest : List Token} {e : Expr ν}

/-! ## What is read is written -/

theorem expect_eq_ok_iff {kind : Token.Kind} (hlast : last.kind ≠ kind) :
    expect kind last ts = .ok rest ↔ ∃ t, ts = t :: rest ∧ t.kind = kind := by
  cases ts with
  | nil => simp [expect, refuse, ahead, hlast]
  | cons t ts =>
      by_cases h : t.kind = kind
      · simp [expect, ahead, h, and_comm, eq_comm]
      · simp [expect, ahead, refuse, h]

/-- What the tokens that a rule took write; those of a tail go on with what is to its left. -/
def Rule.Written : Rule ν → List Token → Expr ν → Prop
  | .sum, ws, e => Writes .sum ws e
  | .sumTail left, ws, e => ∀ ls, Writes .sum ls left → Writes .sum (ls ++ ws) e
  | .product, ws, e => Writes .product ws e
  | .productTail left, ws, e => ∀ ls, Writes .product ls left → Writes .product (ls ++ ws) e
  | .signed, ws, e => Writes .signed ws e
  | .power, ws, e => Writes .power ws e
  | .operand, ws, e => Writes .operand ws e

theorem Reads.exists_written {rule : Rule ν} (hlast : last.kind = .stop) (h : Reads last rule ts e rest) :
    ∃ ws, ts = ws ++ rest ∧ rule.Written ws e := by
  induction h with
  | sum _ _ ihl ihr =>
      obtain ⟨ls, rfl, hl⟩ := ihl
      obtain ⟨rs, rfl, hr⟩ := ihr
      exact ⟨ls ++ rs, by simp, hr ls (.product hl)⟩
  | sumStop => exact ⟨[], rfl, fun ls hl ↦ by rwa [List.append_nil]⟩
  | sumMore hop _ _ ihl ihr =>
      obtain ⟨rs, rfl, hr⟩ := ihl
      obtain ⟨more, rfl, hmore⟩ := ihr
      refine ⟨_ :: (rs ++ more), by rw [List.cons_append, List.append_assoc], fun ls hl ↦ ?_⟩
      simpa using hmore _ (.sum hl hop hr)
  | product _ _ ihl ihr =>
      obtain ⟨ls, rfl, hl⟩ := ihl
      obtain ⟨rs, rfl, hr⟩ := ihr
      exact ⟨ls ++ rs, by simp, hr ls (.signed hl)⟩
  | productStop => exact ⟨[], rfl, fun ls hl ↦ by rwa [List.append_nil]⟩
  | productMore hop _ _ ihl ihr =>
      obtain ⟨rs, rfl, hr⟩ := ihl
      obtain ⟨more, rfl, hmore⟩ := ihr
      refine ⟨_ :: (rs ++ more), by rw [List.cons_append, List.append_assoc], fun ls hl ↦ ?_⟩
      simpa using hmore _ (.factor hl hop hr)
  | minus hkind _ ih =>
      obtain ⟨ws, rfl, hw⟩ := ih
      exact ⟨_ :: ws, rfl, .minus hkind hw⟩
  | plus hkind _ ih =>
      obtain ⟨ws, rfl, hw⟩ := ih
      exact ⟨_ :: ws, rfl, .plus hkind hw⟩
  | unsigned _ _ _ ih =>
      obtain ⟨ws, hts, hw⟩ := ih
      exact ⟨ws, hts, .power hw⟩
  | base _ _ ih =>
      obtain ⟨ws, rfl, hw⟩ := ih
      exact ⟨ws, rfl, .operand hw⟩
  | raised _ hkind _ ihb ihe =>
      obtain ⟨bs, rfl, hb⟩ := ihb
      obtain ⟨es, rfl, he⟩ := ihe
      exact ⟨bs ++ _ :: es, by simp, .raised hb hkind he⟩
  | number hkind hx => exact ⟨[_], rfl, .number hkind hx⟩
  | symbol hkind hname => exact ⟨[_], rfl, .symbol hkind hname⟩
  | brackets hkind _ hclose ih =>
      obtain ⟨ws, rfl, hw⟩ := ih
      obtain ⟨u, rfl, hu⟩ := (expect_eq_ok_iff (by simp [hlast])).mp hclose
      exact ⟨_ :: (ws ++ [u]), by simp, .brackets hkind hw hu⟩
  | call hkind hname hopen _ _ hclose ih =>
      obtain ⟨ws, rfl, hw⟩ := ih
      obtain ⟨u, rfl, hu⟩ := (expect_eq_ok_iff (by simp [hlast])).mp hclose
      exact ⟨_ :: _ :: (ws ++ [u]), by simp, .call hkind hname hopen hw hu⟩

/-! ## What is written is read -/

/-- The first token of an operand or a power can begin an operand, so it is not a sign. -/
theorem Writes.exists_startsOperand (h : Writes part ws e) (hpart : part = .operand ∨ part = .power) :
    ∃ t ts, ws = t :: ts ∧ t.startsOperand = true := by
  induction h with
  | operand _ ih => exact ih (.inl rfl)
  | raised _ _ _ ih _ =>
      obtain ⟨t, ts, rfl, ht⟩ := ih (.inl rfl)
      exact ⟨t, _, rfl, ht⟩
  | number hkind _ => exact ⟨_, _, rfl, by simp [Token.startsOperand, hkind]⟩
  | symbol hkind _ => exact ⟨_, _, rfl, by simp [Token.startsOperand, hkind]⟩
  | brackets hkind _ _ _ => exact ⟨_, _, rfl, by simp [Token.startsOperand, hkind]⟩
  | call hkind _ _ _ _ _ => exact ⟨_, _, rfl, by simp [Token.startsOperand, hkind]⟩
  | _ => simp at hpart

/-- What is written is read off the front of a list whose next token does not go on with it.  A sum or a
product ends where its tail does. -/
def Part.Read (last : Token) (part : Part) (ws : List Token) (e : Expr ν) : Prop :=
  match part with
  | .sum => ∀ rest e' rest', (∀ t ∈ rest.head?, t.kind ≠ .caret ∧ productOperator? t.kind = none) →
      Reads last (.sumTail e) rest e' rest' → Reads last .sum (ws ++ rest) e' rest'
  | .product => ∀ rest e' rest', (∀ t ∈ rest.head?, t.kind ≠ .caret) →
      Reads last (.productTail e) rest e' rest' → Reads last .product (ws ++ rest) e' rest'
  | .signed => ∀ rest, (∀ t ∈ rest.head?, t.kind ≠ .caret) → Reads last .signed (ws ++ rest) e rest
  | .power => ∀ rest, (∀ t ∈ rest.head?, t.kind ≠ .caret) → Reads last .power (ws ++ rest) e rest
  | .operand => ∀ rest, Reads last .operand (ws ++ rest) e rest

theorem kind_of_sumOperator? {kind : Token.Kind} {op : Operator} (h : sumOperator? kind = some op) :
    kind = .plus ∨ kind = .minus := by
  cases kind <;> simp_all [sumOperator?]

theorem kind_of_productOperator? {kind : Token.Kind} {op : Operator} (h : productOperator? kind = some op) :
    kind = .star ∨ kind = .slash := by
  cases kind <;> simp_all [productOperator?]

/-- A whole product, where the next token goes on with neither a product nor a power. -/
theorem Part.Read.product_stop (h : Part.product.Read last ws e)
    (hrest : ∀ t ∈ rest.head?, t.kind ≠ .caret ∧ productOperator? t.kind = none) :
    Reads last .product (ws ++ rest) e rest :=
  h rest e rest (fun t ht ↦ (hrest t ht).1) (.productStop fun t ht ↦ (hrest t ht).2)

/-- A whole sum before a closing bracket, a sign of equality or the end. -/
theorem Part.Read.sum_stop (h : Part.sum.Read last ws e)
    (ht : t.kind = .closeBracket ∨ t.kind = .equals ∨ t.kind = .stop) :
    Reads last .sum (ws ++ t :: rest) e (t :: rest) := by
  refine h _ _ _ ?_ (.sumStop ?_) <;> rcases ht with ht | ht | ht <;>
    simp [ht, productOperator?, sumOperator?]

theorem Writes.read (hlast : last.kind = .stop) (h : Writes part ws e) : part.Read last ws e := by
  induction h with
  | product _ ih => exact fun rest e' rest' hrest htail ↦ .sum (Part.Read.product_stop ih hrest) htail
  | @sum ls rs t op l r _ hop _ ihl ihr =>
      intro rest e' rest' hrest htail
      have hmore : Reads last (.sumTail l) (t :: (rs ++ rest)) e' rest' :=
        .sumMore hop (Part.Read.product_stop ihr hrest) htail
      have ht : t.kind ≠ .caret ∧ productOperator? t.kind = none := by
        rcases kind_of_sumOperator? hop with h | h <;> simp [h, productOperator?]
      simpa using ihl _ e' rest' (by simpa using ht) hmore
  | signed _ ih => exact fun rest e' rest' hrest htail ↦ .product (ih rest hrest) htail
  | @factor ls rs t op l r _ hop _ ihl ihr =>
      intro rest e' rest' hrest htail
      have hmore : Reads last (.productTail l) (t :: (rs ++ rest)) e' rest' :=
        .productMore hop (ihr rest hrest) htail
      have ht : t.kind ≠ .caret := by
        rcases kind_of_productOperator? hop with h | h <;> simp [h]
      simpa using ihl _ e' rest' (by simpa using ht) hmore
  | minus hkind _ ih => exact fun rest hrest ↦ .minus hkind (ih rest hrest)
  | plus hkind _ ih => exact fun rest hrest ↦ .plus hkind (ih rest hrest)
  | power h ih =>
      intro rest hrest
      obtain ⟨t, ts, rfl, ht⟩ := h.exists_startsOperand (.inr rfl)
      refine .unsigned ?_ ?_ (ih rest hrest) <;>
        exact fun hkind ↦ by simp [Token.startsOperand, hkind] at ht
  | operand _ ih => exact fun rest hrest ↦ .base (ih rest) hrest
  | raised _ hkind _ ihb ihe =>
      intro rest hrest
      exact .raised (by simpa using ihb _) hkind (ihe rest hrest)
  | number hkind hx => exact fun rest ↦ .number hkind hx
  | symbol hkind hname => exact fun rest ↦ .symbol hkind hname
  | brackets hkind _ hu ih =>
      intro rest
      refine .brackets hkind (by simpa using ih.sum_stop (.inl hu)) ?_
      exact (expect_eq_ok_iff (by simp [hlast])).mpr ⟨_, rfl, hu⟩
  | call hkind hname hopen _ hu ih =>
      intro rest
      refine .call hkind hname hopen (by simpa using ih.sum_stop (.inl hu)) (by simp [ahead, hu]) ?_
      exact (expect_eq_ok_iff (by simp [hlast])).mpr ⟨_, rfl, hu⟩

/-! ## What is read is accepted -/

/-- The function that reads a rule gives an expression and the rest. -/
def Rule.Accepts (last : Token) : Rule ν → List Token → Expr ν → List Token → Prop
  | .sum, ts, e, rest => ∃ r, parseSum last ts = .ok r ∧ r.1 = (e, rest)
  | .sumTail left, ts, e, rest => ∃ r, parseSumTail last left ts = .ok r ∧ r.1 = (e, rest)
  | .product, ts, e, rest => ∃ r, parseProduct last ts = .ok r ∧ r.1 = (e, rest)
  | .productTail left, ts, e, rest => ∃ r, parseProductTail last left ts = .ok r ∧ r.1 = (e, rest)
  | .signed, ts, e, rest => ∃ r, parseSigned last ts = .ok r ∧ r.1 = (e, rest)
  | .power, ts, e, rest => ∃ r, parsePower last ts = .ok r ∧ r.1 = (e, rest)
  | .operand, ts, e, rest => ∃ r, parseOperand last ts = .ok r ∧ r.1 = (e, rest)

namespace Rule.Accepts

variable {u : Token} {rest' : List Token} {left right : Expr ν} {op : Operator} {f : Function}

theorem sum (hl : Rule.product.Accepts last ts left rest)
    (hr : (Rule.sumTail left).Accepts last rest e rest') : Rule.sum.Accepts last ts e rest' := by
  obtain ⟨⟨_, _⟩, hl, rfl⟩ := hl
  obtain ⟨⟨_, _⟩, hr, rfl⟩ := hr
  change ∃ r, parseSum last ts = _ ∧ _
  unfold parseSum
  simp only [hl, hr]
  exact ⟨_, rfl, rfl⟩

theorem sumStop (hstop : ∀ t ∈ ts.head?, sumOperator? t.kind = none) :
    (Rule.sumTail left).Accepts last ts left ts := by
  change ∃ r, parseSumTail last left ts = _ ∧ _
  unfold parseSumTail
  cases ts with
  | nil => exact ⟨_, rfl, rfl⟩
  | cons t ts =>
      dsimp only
      rw [hstop t rfl]
      exact ⟨_, rfl, rfl⟩

theorem sumMore (hop : sumOperator? t.kind = some op) (hl : Rule.product.Accepts last ts right rest)
    (hr : (Rule.sumTail (bin op left right)).Accepts last rest e rest') :
    (Rule.sumTail left).Accepts last (t :: ts) e rest' := by
  obtain ⟨⟨_, _⟩, hl, rfl⟩ := hl
  obtain ⟨⟨_, _⟩, hr, rfl⟩ := hr
  change ∃ r, parseSumTail last left (t :: ts) = _ ∧ _
  unfold parseSumTail
  simp only [hop, hl, hr]
  exact ⟨_, rfl, rfl⟩

theorem product (hl : Rule.signed.Accepts last ts left rest)
    (hr : (Rule.productTail left).Accepts last rest e rest') : Rule.product.Accepts last ts e rest' := by
  obtain ⟨⟨_, _⟩, hl, rfl⟩ := hl
  obtain ⟨⟨_, _⟩, hr, rfl⟩ := hr
  change ∃ r, parseProduct last ts = _ ∧ _
  unfold parseProduct
  simp only [hl, hr]
  exact ⟨_, rfl, rfl⟩

theorem productStop (hstop : ∀ t ∈ ts.head?, productOperator? t.kind = none) :
    (Rule.productTail left).Accepts last ts left ts := by
  change ∃ r, parseProductTail last left ts = _ ∧ _
  unfold parseProductTail
  cases ts with
  | nil => exact ⟨_, rfl, rfl⟩
  | cons t ts =>
      dsimp only
      rw [hstop t rfl]
      exact ⟨_, rfl, rfl⟩

theorem productMore (hop : productOperator? t.kind = some op) (hl : Rule.signed.Accepts last ts right rest)
    (hr : (Rule.productTail (bin op left right)).Accepts last rest e rest') :
    (Rule.productTail left).Accepts last (t :: ts) e rest' := by
  obtain ⟨⟨_, _⟩, hl, rfl⟩ := hl
  obtain ⟨⟨_, _⟩, hr, rfl⟩ := hr
  change ∃ r, parseProductTail last left (t :: ts) = _ ∧ _
  unfold parseProductTail
  simp only [hop, hl, hr]
  exact ⟨_, rfl, rfl⟩

theorem minus (hkind : t.kind = .minus) (h : Rule.signed.Accepts last ts e rest) :
    Rule.signed.Accepts last (t :: ts) (withMinus e) rest := by
  obtain ⟨⟨_, _⟩, he, rfl⟩ := h
  change ∃ r, parseSigned last (t :: ts) = _ ∧ _
  unfold parseSigned
  simp only [hkind, if_true, he]
  exact ⟨_, rfl, rfl⟩

theorem plus (hkind : t.kind = .plus) (h : Rule.signed.Accepts last ts e rest) :
    Rule.signed.Accepts last (t :: ts) e rest := by
  obtain ⟨⟨_, _⟩, he, rfl⟩ := h
  change ∃ r, parseSigned last (t :: ts) = _ ∧ _
  unfold parseSigned
  dsimp only
  rw [if_neg (by simp [hkind]), if_pos hkind, he]
  exact ⟨_, rfl, rfl⟩

theorem unsigned (hminus : t.kind ≠ .minus) (hplus : t.kind ≠ .plus)
    (h : Rule.power.Accepts last (t :: ts) e rest) : Rule.signed.Accepts last (t :: ts) e rest := by
  change ∃ r, parseSigned last (t :: ts) = _ ∧ _
  unfold parseSigned
  dsimp only
  rw [if_neg hminus, if_neg hplus]
  exact h

theorem base (h : Rule.operand.Accepts last ts e rest) (hcaret : ∀ t ∈ rest.head?, t.kind ≠ .caret) :
    Rule.power.Accepts last ts e rest := by
  obtain ⟨⟨_, _⟩, he, rfl⟩ := h
  change ∃ r, parsePower last ts = _ ∧ _
  unfold parsePower
  rw [he]
  cases rest with
  | nil => exact ⟨_, rfl, rfl⟩
  | cons t rest =>
      dsimp only
      rw [if_neg (hcaret t rfl)]
      exact ⟨_, rfl, rfl⟩

theorem raised (hb : Rule.operand.Accepts last ts left (t :: rest)) (hcaret : t.kind = .caret)
    (he : Rule.signed.Accepts last rest right rest') :
    Rule.power.Accepts last ts (bin .pow left right) rest' := by
  obtain ⟨⟨_, _⟩, hb, rfl⟩ := hb
  obtain ⟨⟨_, _⟩, he, rfl⟩ := he
  change ∃ r, parsePower last ts = _ ∧ _
  unfold parsePower
  rw [hb]
  dsimp only
  rw [if_pos hcaret, he]
  exact ⟨_, rfl, rfl⟩

theorem number {x : ν} (hkind : t.kind = .number) (hx : Scalar.read? t.text = some x) :
    Rule.operand.Accepts last (t :: ts) (num x) ts := by
  change ∃ r, parseOperand last (t :: ts) = _ ∧ _
  unfold parseOperand
  simp only [hkind, hx]
  exact ⟨_, rfl, rfl⟩

theorem symbol (hkind : t.kind = .identifier) (hname : Function.ofName? t.text = none) :
    Rule.operand.Accepts last (t :: ts) (sym t.text : Expr ν) ts := by
  change ∃ r, parseOperand last (t :: ts) = _ ∧ _
  unfold parseOperand
  simp only [hkind, hname]
  exact ⟨_, rfl, rfl⟩

theorem brackets (hkind : t.kind = .openBracket) (h : Rule.sum.Accepts last ts e rest)
    (hclose : expect .closeBracket last rest = .ok rest') : Rule.operand.Accepts last (t :: ts) e rest' := by
  obtain ⟨⟨_, _⟩, he, rfl⟩ := h
  change ∃ r, parseOperand last (t :: ts) = _ ∧ _
  unfold parseOperand
  simp only [hkind, he]
  -- the parser keeps the equation of `expect` for its bound, so the equation cannot be rewritten with
  split
  · next h =>
    rw [hclose] at h
    cases h
  · next h =>
    rw [hclose] at h
    cases h
    exact ⟨_, rfl, rfl⟩

theorem call (hkind : t.kind = .identifier) (hname : Function.ofName? t.text = some f)
    (hopen : u.kind = .openBracket) (h : Rule.sum.Accepts last ts e rest)
    (hcomma : (ahead last rest).kind ≠ .comma) (hclose : expect .closeBracket last rest = .ok rest') :
    Rule.operand.Accepts last (t :: u :: ts) (call f e) rest' := by
  obtain ⟨⟨_, _⟩, he, rfl⟩ := h
  change ∃ r, parseOperand last (t :: u :: ts) = _ ∧ _
  unfold parseOperand
  simp only [hkind, hname, hopen, if_true, he, if_neg hcomma]
  split
  · next h =>
    rw [hclose] at h
    cases h
  · next h =>
    rw [hclose] at h
    cases h
    exact ⟨_, rfl, rfl⟩

end Rule.Accepts

theorem Reads.accepts {rule : Rule ν} (h : Reads last rule ts e rest) : rule.Accepts last ts e rest := by
  induction h with
  | sum _ _ ihl ihr => exact .sum ihl ihr
  | sumStop hstop => exact .sumStop hstop
  | sumMore hop _ _ ihl ihr => exact .sumMore hop ihl ihr
  | product _ _ ihl ihr => exact .product ihl ihr
  | productStop hstop => exact .productStop hstop
  | productMore hop _ _ ihl ihr => exact .productMore hop ihl ihr
  | minus hkind _ ih => exact .minus hkind ih
  | plus hkind _ ih => exact .plus hkind ih
  | unsigned hminus hplus _ ih => exact .unsigned hminus hplus ih
  | base _ hcaret ih => exact .base ih hcaret
  | raised _ hcaret _ ihb ihe => exact .raised ihb hcaret ihe
  | number hkind hx => exact .number hkind hx
  | symbol hkind hname => exact .symbol hkind hname
  | brackets hkind _ hclose ih => exact .brackets hkind ih hclose
  | call hkind hname hopen _ hcomma hclose ih => exact .call hkind hname hopen ih hcomma hclose

/-! ## Whole lists -/

theorem Writes.kind_notMem (h : Writes part ws e) : ∀ t ∈ ws, t.kind ∉ [Token.Kind.stop, .equals, .comma] := by
  induction h with
  | product _ ih | signed _ ih | power _ ih | operand _ ih => exact ih
  | sum _ hop _ ihl ihr =>
      rcases kind_of_sumOperator? hop with hkind | hkind <;> simp_all [or_imp]
  | factor _ hop _ ihl ihr =>
      rcases kind_of_productOperator? hop with hkind | hkind <;> simp_all [or_imp]
  | _ => simp_all [or_imp]

theorem Writes.kind_ne_stop (h : Writes part ws e) : ∀ t ∈ ws, t.kind ≠ .stop :=
  fun t ht hkind ↦ h.kind_notMem t ht (hkind ▸ List.mem_cons_self)

theorem Writes.kind_ne_equals (h : Writes part ws e) : ∀ t ∈ ws, t.kind ≠ .equals :=
  fun t ht hkind ↦ h.kind_notMem t ht (hkind ▸ List.mem_cons_of_mem _ List.mem_cons_self)

theorem Writes.kind_ne_comma (h : Writes part ws e) : ∀ t ∈ ws, t.kind ≠ .comma :=
  fun t ht hkind ↦ h.kind_notMem t ht (by simp [hkind])

/-- Two parts of a list that end before its only end mark are the same. -/
theorem eq_of_append_stop {body : List Token} (hbody : ∀ t ∈ body, t.kind ≠ .stop)
    (hws : ∀ t ∈ ws, t.kind ≠ .stop) (hlast : last.kind = .stop) (hrest : (ahead last rest).kind = .stop)
    (h : body ++ [last] = ws ++ rest) : body = ws := by
  have hstop : rest.takeWhile (fun t ↦ t.kind ≠ .stop) = [] := by
    cases rest with
    | nil => rfl
    | cons t rest => exact List.takeWhile_cons_of_neg (by simpa [ahead] using hrest)
  have hbefore := congrArg (List.takeWhile fun t ↦ t.kind ≠ .stop) h
  rw [List.takeWhile_append_of_pos (by simpa using hbody),
    List.takeWhile_append_of_pos (by simpa using hws), hstop] at hbefore
  simpa [hlast] using hbefore

/-- What the parser reads off the front of a list is what is written there, up to where it stops. -/
theorem parseSum_eq_ok_iff :
    (∃ r, parseSum last ts = .ok r ∧ r.1 = (e, rest)) ↔ Reads last .sum ts e rest := by
  constructor
  · rintro ⟨r, hr, he⟩
    have hreads := reads_of_parseSum hr
    rwa [he] at hreads
  · exact Reads.accepts

theorem finish_eq_ok_iff {α : Type} {what : String} {a b : α} :
    finish what last rest a = .ok b ↔ (ahead last rest).kind = .stop ∧ a = b := by
  by_cases h : (ahead last rest).kind = .stop <;> simp [finish, refuse, h]

theorem ofTokens_eq_ok_iff_reads (hlast : ts.getLast? = some last) :
    ofTokens ts = .ok e ↔ ∃ rest, Reads last .sum ts e rest ∧ (ahead last rest).kind = .stop := by
  simp only [ofTokens, hlast, bind_eq_ok_iff, finish_eq_ok_iff, ← parseSum_eq_ok_iff]
  constructor
  · rintro ⟨⟨⟨e', rest⟩, hlt⟩, hr, hstop, rfl⟩
    exact ⟨rest, ⟨_, hr, rfl⟩, hstop⟩
  · rintro ⟨rest, ⟨⟨_, hlt⟩, hr, rfl⟩, hstop⟩
    exact ⟨_, hr, hstop, rfl⟩

variable {body : List Token}

theorem ofTokens_eq_ok_iff (hlast : last.kind = .stop) (hbody : ∀ t ∈ body, t.kind ≠ .stop) :
    ofTokens (body ++ [last]) = .ok e ↔ Writes .sum body e := by
  rw [ofTokens_eq_ok_iff_reads List.getLast?_concat]
  constructor
  · rintro ⟨rest, h, hstop⟩
    obtain ⟨ws, hts, hw⟩ := h.exists_written hlast
    have hws : Writes .sum ws e := hw
    rwa [eq_of_append_stop hbody hws.kind_ne_stop hlast hstop hts]
  · exact fun h ↦ ⟨[last], (h.read hlast).sum_stop (.inr (.inr hlast)), hlast⟩

theorem ofTokens_equation_eq_ok_iff {q : Equation ν} (hlast : last.kind = .stop)
    (hbody : ∀ t ∈ body, t.kind ≠ .stop) :
    Equation.ofTokens (body ++ [last]) = .ok q ↔ ∃ ls t rs, body = ls ++ t :: rs ∧ t.kind = .equals ∧
      Writes .sum ls q.lhs ∧ Writes .sum rs q.rhs := by
  have hreads : Equation.ofTokens (body ++ [last]) = .ok q ↔ ∃ t rest rest',
      Reads last .sum (body ++ [last]) q.lhs (t :: rest) ∧ t.kind = .equals ∧
      Reads last .sum rest q.rhs rest' ∧ (ahead last rest').kind = .stop := by
    have hexpect : ∀ ts rest, expect .equals last ts = .ok rest ↔ ∃ t, ts = t :: rest ∧ t.kind = .equals :=
      fun ts rest ↦ expect_eq_ok_iff (by simp [hlast])
    simp only [Equation.ofTokens, List.getLast?_concat, bind_eq_ok_iff, finish_eq_ok_iff, hexpect,
      ← parseSum_eq_ok_iff]
    constructor
    · rintro ⟨⟨⟨lhs, _⟩, hlt⟩, hl, rest, ⟨t, rfl, ht⟩, ⟨⟨rhs, rest'⟩, hlt'⟩, hr, hstop, rfl⟩
      exact ⟨t, rest, rest', ⟨_, hl, rfl⟩, ht, ⟨_, hr, rfl⟩, hstop⟩
    · obtain ⟨lhs, rhs⟩ := q
      rintro ⟨t, rest, rest', ⟨⟨_, hlt⟩, hl, rfl⟩, ht, ⟨⟨_, hlt'⟩, hr, rfl⟩, hstop⟩
      exact ⟨_, hl, rest, ⟨t, rfl, ht⟩, _, hr, hstop, rfl⟩
  rw [hreads]
  constructor
  · rintro ⟨t, rest, rest', hl, ht, hr, hstop⟩
    obtain ⟨ls, hts, hw⟩ := hl.exists_written hlast
    have hls : Writes .sum ls q.lhs := hw
    obtain ⟨rs, rfl, hw⟩ := hr.exists_written hlast
    have hrs : Writes .sum rs q.rhs := hw
    have hws : ∀ u ∈ ls ++ t :: rs, u.kind ≠ .stop := by
      have hls' := hls.kind_ne_stop
      have hrs' := hrs.kind_ne_stop
      simp_all [or_imp]
    exact ⟨ls, t, rs, eq_of_append_stop hbody hws hlast hstop (by simpa using hts), ht, hls, hrs⟩
  · rintro ⟨ls, t, rs, rfl, ht, hl, hr⟩
    refine ⟨t, rs ++ [last], [last], ?_, ht, (hr.read hlast).sum_stop (.inr (.inr hlast)), hlast⟩
    simpa using (hl.read hlast).sum_stop (.inr (.inl ht))

/-- **The parser decides the grammar.**  On tokens with one end mark, at their end, the parser accepts an
expression if the tokens before the mark write one, and an equation if they write two around a sign of
equality; no tokens write two trees. -/
theorem ofTokens_iff_writes (body : List Token) (last : Token) (hlast : last.kind = .stop)
    (hbody : ∀ t ∈ body, t.kind ≠ .stop) :
    (∀ e : Expr ν, ofTokens (body ++ [last]) = .ok e ↔ Writes .sum body e) ∧
    (∀ e e' : Expr ν, Writes .sum body e → Writes .sum body e' → e = e') ∧
    (∀ q : Equation ν, Equation.ofTokens (body ++ [last]) = .ok q ↔ ∃ ls t rs, body = ls ++ t :: rs ∧
      t.kind = .equals ∧ Writes .sum ls q.lhs ∧ Writes .sum rs q.rhs) := by
  refine ⟨fun e ↦ ofTokens_eq_ok_iff hlast hbody, fun e e' h h' ↦ ?_,
    fun q ↦ ofTokens_equation_eq_ok_iff hlast hbody⟩
  have hparsed := (ofTokens_eq_ok_iff hlast hbody).mpr h
  rw [(ofTokens_eq_ok_iff hlast hbody).mpr h'] at hparsed
  exact (Except.ok.inj hparsed).symm

/-- Signs on both sides of a power: `- x ^ - 2` is the negation of a power, with a literal for exponent. -/
theorem writes_signs : let t := fun kind text ↦ (⟨kind, 0, 0, text⟩ : Token)
    ofTokens (([t .minus "-", t .identifier "x", t .caret "^", t .minus "-", t .number "2"] : List Token) ++
      [t .stop ""]) = .ok (neg (bin .pow (sym "x") (num (-2))) : Expr ℚ) := by
  intro t
  refine ((ofTokens_iff_writes _ _ rfl (by decide)).1 _).mpr ?_
  have htwo : Writes .operand [t .number "2"] (num 2 : Expr ℚ) := .number rfl (by decide +kernel)
  have hx : Writes .operand [t .identifier "x"] (sym "x" : Expr ℚ) := .symbol rfl (by decide +kernel)
  have hminus : Writes .signed [t .minus "-", t .number "2"] (num (-2) : Expr ℚ) :=
    .minus rfl (.power (.operand htwo))
  have hpower : Writes .power [t .identifier "x", t .caret "^", t .minus "-", t .number "2"]
      (bin .pow (sym "x") (num (-2)) : Expr ℚ) := .raised hx rfl hminus
  exact .product (.signed (.minus rfl (.power hpower)))

end FormulaNet.Expr

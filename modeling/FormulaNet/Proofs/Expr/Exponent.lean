import FormulaNet.Proofs.Expr.Grammar
import FormulaNet.Proofs.Token.Rebracketed

/-!
# Exponents in brackets

Brackets around an exponent that is a number change nothing.  Where a rule of the grammar reads an expression off a
list of tokens, it reads the same off a list that differs in such brackets: the exponent follows a caret, and
there a number alone and in brackets is the same operand.  So a text with the brackets and one without
them are parsed alike, unless the number goes on where its closing bracket would be.
-/

namespace FormulaNet

variable {text : String} {t u : Token} {ts us xs ys : List Token}

namespace Token.Rebracketed

open FormulaNet.Expr (ahead expect)

variable {last last' : Token} {rest : List Token}

theorem ahead_kind (h : Rebracketed ts us) : (ahead last ts).kind = (ahead last' us).kind := by
  obtain ⟨t, ts, u, us, rfl, rfl, hkind⟩ := h.exists_heads
  exact hkind

theorem exists_close (h : Rebracketed ts us) (hclose : expect .closeBracket last ts = .ok rest) :
    ∃ rest', expect .closeBracket last' us = .ok rest' ∧ Rebracketed rest rest' := by
  obtain ⟨t, ts, -, -, rfl, -, -⟩ := h.exists_heads
  by_cases ht : (ahead last (t :: ts)).kind = .closeBracket
  · obtain ⟨u, us, rfl, -, hrest⟩ := h.exists_cons (ht ▸ nofun) (ht ▸ nofun)
    rw [expect, if_pos ht] at hclose
    cases hclose
    exact ⟨us, if_pos (h.ahead_kind.symm.trans ht), hrest⟩
  · rw [expect, if_neg ht] at hclose
    cases hclose

end Token.Rebracketed

namespace Expr

open Token (IsLiteral Rebracketed)

variable {ν : Type} [Scalar ν] {last last' : Token} {rest : List Token} {e : Expr ν} {rule : Rule ν}

/-- A number is read as an operand, with nothing after it. -/
theorem Reads.of_number (h : Reads last .operand (t :: ts) e rest) (ht : t.kind = .number) :
    ∃ x : ν, Scalar.read? t.text = some x ∧ e = num x ∧ rest = ts := by
  cases h with
  | number _ hx => exact ⟨_, hx, rfl, rfl⟩
  | symbol hkind => simp [ht] at hkind
  | brackets hkind => simp [ht] at hkind
  | call hkind => simp [ht] at hkind

/-- A number before a closing bracket is the whole sum there. -/
theorem Reads.sum_of_number (h : Reads last .sum (t :: u :: ts) e rest) (ht : t.kind = .number)
    (hu : u.kind = .closeBracket) : ∃ x : ν, Scalar.read? t.text = some x ∧ e = num x ∧ rest = u :: ts := by
  have power : ∀ {e : Expr ν} {rest}, Reads last .power (t :: u :: ts) e rest →
      ∃ x : ν, Scalar.read? t.text = some x ∧ e = num x ∧ rest = u :: ts := by
    intro e rest h
    cases h with
    | base h => exact h.of_number ht
    | raised hb hcaret =>
        obtain ⟨-, -, -, hrest⟩ := hb.of_number ht
        rw [(List.cons.inj hrest).1, hu] at hcaret
        cases hcaret
  have signed : ∀ {e : Expr ν} {rest}, Reads last .signed (t :: u :: ts) e rest →
      ∃ x : ν, Scalar.read? t.text = some x ∧ e = num x ∧ rest = u :: ts := by
    intro e rest h
    cases h with
    | minus hkind => simp [ht] at hkind
    | plus hkind => simp [ht] at hkind
    | unsigned _ _ h => exact power h
  cases h with
  | sum hproduct hsum =>
      cases hproduct with
      | product hsigned hproduct =>
          obtain ⟨x, hx, rfl, rfl⟩ := signed hsigned
          cases hproduct with
          | productMore hop => simp [hu, productOperator?] at hop
          | productStop =>
              cases hsum with
              | sumMore hop => simp [hu, sumOperator?] at hop
              | sumStop => exact ⟨x, hx, rfl, rfl⟩

/-- A number is the same operand alone and in brackets. -/
theorem reads_operand_iff (hxs : IsLiteral text xs) : Reads last .operand (xs ++ ts) e rest ↔
    ∃ x : ν, Scalar.read? text = some x ∧ e = num x ∧ rest = ts := by
  constructor
  · intro h
    cases hxs with
    | bare hn htext => exact htext ▸ h.of_number hn
    | bracketed ho hn htext hc =>
        cases h with
        | number hkind => simp [ho] at hkind
        | symbol hkind => simp [ho] at hkind
        | call hkind => simp [ho] at hkind
        | brackets _ hsum hclose =>
            obtain ⟨x, hx, rfl, rfl⟩ := hsum.sum_of_number hn hc
            rw [expect, if_pos (by simpa [ahead] using hc)] at hclose
            cases hclose
            exact ⟨x, htext ▸ hx, rfl, rfl⟩
  · rintro ⟨x, hx, rfl, rfl⟩
    cases hxs with
    | bare hn htext => exact .number hn (htext ▸ hx)
    | @bracketed o n c ho hn htext hc =>
        have hpower : Reads last .power (n :: c :: rest) (num x) (c :: rest) :=
          .base (.number hn (htext ▸ hx)) (by simp [hc])
        have hproduct : Reads last .product (n :: c :: rest) (num x) (c :: rest) :=
          .product (.unsigned (by simp [hn]) (by simp [hn]) hpower) (.productStop (by simp [hc, productOperator?]))
        exact .brackets ho (.sum hproduct (.sumStop (by simp [hc, sumOperator?]))) (by simp [expect, ahead, hc])

/-- An exponent that begins with a number is read alike with and without brackets around it. -/
theorem reads_signed_of_isLiteral (hxs : IsLiteral text xs) (hys : IsLiteral text ys)
    (h : Reads last .signed (xs ++ ts) e rest) : Reads last .signed (ys ++ ts) e rest := by
  have operand : ∀ {e : Expr ν} {rest}, Reads last .operand (xs ++ ts) e rest →
      Reads last .operand (ys ++ ts) e rest :=
    fun h ↦ (reads_operand_iff hys).mpr ((reads_operand_iff hxs).mp h)
  have hpower : Reads last .power (xs ++ ts) e rest := by
    cases hxs with
    | bare hn =>
        cases h with
        | minus hkind => simp [hn] at hkind
        | plus hkind => simp [hn] at hkind
        | unsigned _ _ h => exact h
    | bracketed ho =>
        cases h with
        | minus hkind => simp [ho] at hkind
        | plus hkind => simp [ho] at hkind
        | unsigned _ _ h => exact h
  -- a power after the number is read from its operand on, so only the operand changes
  have hpower : Reads last .power (ys ++ ts) e rest := by
    generalize xs ++ ts = ws at hpower operand
    cases hpower with
    | base hb hcaret => exact .base (operand hb) hcaret
    | raised hb hcaret he => exact .raised (operand hb) hcaret he
  cases hys with
  | bare hn => exact .unsigned (by simp [hn]) (by simp [hn]) hpower
  | bracketed ho => exact .unsigned (by simp [ho]) (by simp [ho]) hpower

/-- Each rule reads the same expression off two such lists and leaves two such lists. -/
theorem Reads.rebracketed (h : Reads last rule ts e rest) (hus : Rebracketed ts us) :
    ∃ rest', Reads last' rule us e rest' ∧ Rebracketed rest rest' := by
  -- no list is ever empty, so the token shown past the end plays no part and may differ
  induction h generalizing us with
  | sum _ _ ihl ihr =>
      obtain ⟨ms, hl, hms⟩ := ihl hus
      obtain ⟨rest', hr, hrest⟩ := ihr hms
      exact ⟨rest', .sum hl hr, hrest⟩
  | sumStop hstop => exact ⟨us, .sumStop (hus.forall_head (P := (sumOperator? · = none)) hstop), hus⟩
  | sumMore hop _ _ ihl ihr =>
      obtain ⟨u, us, rfl, htu, hus⟩ := hus.exists_cons (by rcases kind_of_sumOperator? hop with h | h <;> simp [h])
        (by rcases kind_of_sumOperator? hop with h | h <;> simp [h])
      obtain ⟨ms, hl, hms⟩ := ihl hus
      obtain ⟨rest', hr, hrest⟩ := ihr hms
      exact ⟨rest', .sumMore (htu.kind ▸ hop) hl hr, hrest⟩
  | product _ _ ihl ihr =>
      obtain ⟨ms, hl, hms⟩ := ihl hus
      obtain ⟨rest', hr, hrest⟩ := ihr hms
      exact ⟨rest', .product hl hr, hrest⟩
  | productStop hstop => exact ⟨us, .productStop (hus.forall_head (P := (productOperator? · = none)) hstop), hus⟩
  | productMore hop _ _ ihl ihr =>
      obtain ⟨u, us, rfl, htu, hus⟩ := hus.exists_cons (by rcases kind_of_productOperator? hop with h | h <;> simp [h])
        (by rcases kind_of_productOperator? hop with h | h <;> simp [h])
      obtain ⟨ms, hl, hms⟩ := ihl hus
      obtain ⟨rest', hr, hrest⟩ := ihr hms
      exact ⟨rest', .productMore (htu.kind ▸ hop) hl hr, hrest⟩
  | minus hkind _ ih =>
      obtain ⟨u, us, rfl, htu, hus⟩ := hus.exists_cons (by simp [hkind]) (by simp [hkind])
      obtain ⟨rest', he, hrest⟩ := ih hus
      exact ⟨rest', .minus (htu.kind ▸ hkind) he, hrest⟩
  | plus hkind _ ih =>
      obtain ⟨u, us, rfl, htu, hus⟩ := hus.exists_cons (by simp [hkind]) (by simp [hkind])
      obtain ⟨rest', he, hrest⟩ := ih hus
      exact ⟨rest', .plus (htu.kind ▸ hkind) he, hrest⟩
  | unsigned hminus hplus _ ih =>
      obtain ⟨rest', he, hrest⟩ := ih hus
      obtain ⟨t, ts, u, us, heq, rfl, hkind⟩ := hus.exists_heads
      obtain ⟨rfl, rfl⟩ := List.cons.inj heq
      exact ⟨rest', .unsigned (hkind ▸ hminus) (hkind ▸ hplus) he, hrest⟩
  | base _ hcaret ih =>
      obtain ⟨rest', hb, hrest⟩ := ih hus
      exact ⟨rest', .base hb (hrest.forall_head (P := (· ≠ .caret)) hcaret), hrest⟩
  | raised _ hcaret _ ihb ihe =>
      obtain ⟨ms, hb, hms⟩ := ihb hus
      cases hms with
      | stop ht => simp [hcaret] at ht
      | cons htu hus =>
          obtain ⟨rest', he, hrest⟩ := ihe hus
          exact ⟨rest', .raised hb (htu.kind ▸ hcaret) he, hrest⟩
      | exponent _ hu hxs hys hus =>
          -- the exponent is read first with its brackets as they are, and then with the other ones
          obtain ⟨rest', he, hrest⟩ := ihe (hus.append_left _)
          exact ⟨rest', .raised hb hu (reads_signed_of_isLiteral hxs hys he), hrest⟩
  | number hkind hx =>
      obtain ⟨u, us, rfl, htu, hus⟩ := hus.exists_cons (by simp [hkind]) (by simp [hkind])
      exact ⟨us, .number (htu.kind ▸ hkind) (htu.text ▸ hx), hus⟩
  | symbol hkind hname =>
      obtain ⟨u, us, rfl, htu, hus⟩ := hus.exists_cons (by simp [hkind]) (by simp [hkind])
      rw [htu.text] at hname ⊢
      exact ⟨us, .symbol (htu.kind ▸ hkind) hname, hus⟩
  | brackets hkind _ hclose ih =>
      obtain ⟨u, us, rfl, htu, hus⟩ := hus.exists_cons (by simp [hkind]) (by simp [hkind])
      obtain ⟨ms, he, hms⟩ := ih hus
      obtain ⟨rest', hclose', hrest⟩ := hms.exists_close hclose
      exact ⟨rest', .brackets (htu.kind ▸ hkind) he hclose', hrest⟩
  | call hkind hname hopen _ hcomma hclose ih =>
      obtain ⟨u, us, rfl, htu, hus⟩ := hus.exists_cons (by simp [hkind]) (by simp [hkind])
      obtain ⟨w, us, rfl, htw, hus⟩ := hus.exists_cons (by simp [hopen]) (by simp [hopen])
      obtain ⟨ms, he, hms⟩ := ih hus
      obtain ⟨rest', hclose', hrest⟩ := hms.exists_close hclose
      refine ⟨rest', .call (htu.kind ▸ hkind) (htu.text ▸ hname) (htw.kind ▸ hopen) he ?_ hclose', hrest⟩
      exact hms.ahead_kind ▸ hcomma

/-! ## Whole texts -/

theorem ofTokens_of_rebracketed (h : Rebracketed ts us) (he : ofTokens ts = .ok e) : ofTokens us = .ok e := by
  obtain ⟨t, ts, u, us, rfl, rfl, -⟩ := h.exists_heads
  have hlast : ∀ (t : Token) ts, (t :: ts).getLast? = some ((t :: ts).getLast (List.cons_ne_nil t ts)) :=
    fun t ts ↦ List.getLast?_eq_some_getLast (List.cons_ne_nil t ts)
  obtain ⟨rest, hread, hstop⟩ := (ofTokens_eq_ok_iff_reads (hlast t ts)).mp he
  obtain ⟨rest', hread', hrest⟩ := hread.rebracketed h
  exact (ofTokens_eq_ok_iff_reads (hlast u us)).mpr ⟨rest', hread', hrest.ahead_kind.symm.trans hstop⟩

variable {v : Vocabulary} {as bs ds rest : List Char}

theorem parse_of_scannedAlike (h : Token.ScannedAlike as bs) (he : parse v (String.ofList as) = .ok e) :
    parse v (String.ofList bs) = .ok e := by
  obtain ⟨ts, htokens, he⟩ := bind_eq_ok_iff.mp he
  obtain ⟨scanned, hscan, rfl⟩ := map_eq_ok_iff.mp htokens
  rw [String.toList_ofList] at hscan
  obtain ⟨us, hus, halike⟩ := h (q := 0) hscan
  have htokens' := ofTokens_of_rebracketed halike.splitWords.insertProducts he
  refine bind_eq_ok_iff.mpr ⟨_, map_eq_ok_iff.mpr ⟨us, ?_, rfl⟩, htokens'⟩
  rwa [String.toList_ofList]

theorem parse_of_writes {body : List Token} {input : String}
    (htokens : Token.tokenize v input = .ok (body ++ [last])) (hlast : last.kind = .stop)
    (hbody : ∀ t ∈ body, t.kind ≠ .stop) (h : Writes .sum body e) : parse v input = .ok e := by
  rw [parse, htokens]
  exact (ofTokens_eq_ok_iff hlast hbody).mpr h

/-- Brackets around digits that are an exponent change nothing, where what follows does not go on with a number. -/
theorem parse_exponent_brackets (cs : List Char) (hds : Numeral.isDigits ds = true)
    (hrest : Token.takeNumber false rest = ([], rest)) :
    parse v (String.ofList (cs ++ '^' :: (ds ++ rest))) = .ok e ↔
      parse v (String.ofList (cs ++ '^' :: '(' :: (ds ++ ')' :: rest))) = .ok e := by
  have hbare := Token.beginsWithExponent_digits hds hrest
  have hbrackets : Token.BeginsWithExponent _ ('^' :: '(' :: (ds ++ ')' :: rest)) rest :=
    Token.beginsWithExponent_brackets hds
  have hcaret : ∀ as, Token.CaretNext ('^' :: as) := by
    rintro as c ⟨rfl⟩
    rfl
  exact ⟨parse_of_scannedAlike ((hbare.scannedAlike hbrackets).append_left (hcaret _) (hcaret _) cs),
    parse_of_scannedAlike ((hbrackets.scannedAlike hbare).append_left (hcaret _) (hcaret _) cs)⟩

end Expr

end FormulaNet

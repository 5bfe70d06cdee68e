import FormulaNet.Proofs.Exact
import FormulaNet.Proofs.Expr.Grammar
import FormulaNet.Proofs.Token.Number

/-!
# Numbers that are refused

The parser refuses a number only if it cannot be read, and names the number and where it begins.  Of the numbers that
scanning finds those can be read that do not go on after their exponent.
-/

namespace FormulaNet

namespace Expr

variable {ν : Type} [Scalar ν]

/-- If the error is about the text of a number, that number is among the tokens, and it denotes no scalar. -/
def Blames (ν : Type) [Scalar ν] (ts : List Token) (e : Error) : Prop :=
  ∀ position s, e = .syntaxError position (.numeral s) →
    ∃ t ∈ ts, t.kind = .number ∧ t.start = position ∧ t.text = s ∧ (Scalar.read? s : Option ν) = none

variable {last : Token} {ts us rest : List Token} {left : Expr ν} {e : Error}

theorem Blames.mono (h : Blames ν ts e) (hsub : ts ⊆ us) : Blames ν us e := by
  intro position s he
  obtain ⟨t, ht, hspec⟩ := h position s he
  exact ⟨t, hsub ht, hspec⟩

theorem blames_of_expect {kind : Token.Kind} (h : expect kind last ts = .error e) : Blames ν us e := by
  unfold expect refuse at h
  split at h
  · cases h
  · cases h
    rintro _ _ ⟨⟩

/-- What the parser refuses by the rules that it uses on shorter lists: lists of fewer than `n` tokens. -/
structure Refusing (ν : Type) [Scalar ν] (last : Token) (n : Nat) : Prop where
  sum : ∀ {ts : List Token} {e : Error}, ts.length < n →
    (parseSum last ts : Except Error (Parsed ν ts.length)) = .error e → Blames ν ts e
  sumTail : ∀ {left : Expr ν} {ts : List Token} {e : Error}, ts.length < n →
    parseSumTail last left ts = .error e → Blames ν ts e
  product : ∀ {ts : List Token} {e : Error}, ts.length < n →
    (parseProduct last ts : Except Error (Parsed ν ts.length)) = .error e → Blames ν ts e
  productTail : ∀ {left : Expr ν} {ts : List Token} {e : Error}, ts.length < n →
    parseProductTail last left ts = .error e → Blames ν ts e
  signed : ∀ {ts : List Token} {e : Error}, ts.length < n →
    (parseSigned last ts : Except Error (Parsed ν ts.length)) = .error e → Blames ν ts e

namespace Refusing

theorem blames_operand (h : Refusing ν last ts.length)
    (he : (parseOperand last ts : Except Error (Parsed ν ts.length)) = .error e) : Blames ν ts e := by
  unfold parseOperand at he
  split at he
  · cases he
    unfold pastEnd
    split <;> rintro _ _ ⟨⟩
  · next t rest =>
    split at he
    -- a number is the one operand that is refused for its text
    · next hkind =>
      split at he
      · cases he
      · next hnone =>
        cases he
        rintro position s ⟨rfl, rfl⟩
        exact ⟨t, List.mem_cons_self, hkind, rfl, rfl, hnone⟩
    -- brackets are refused for what is in them, or for one that is missing
    · split at he
      · next hinner =>
        cases he
        exact (h.sum (by simp) hinner).mono (List.subset_cons_self _ _)
      · split at he
        · next hclose =>
          cases he
          exact blames_of_expect hclose
        · cases he
    -- and so are calls; a symbol is not refused
    · split at he
      · cases he
      · split at he
        · cases he
          rintro _ _ ⟨⟩
        · next u rest' =>
          split at he
          · split at he
            · next hinner =>
              cases he
              refine (h.sum (Nat.lt_succ_of_lt (Nat.lt_succ_self _)) hinner).mono ?_
              exact List.subset_cons_of_subset _ (List.subset_cons_self _ _)
            · split at he
              · unfold refuse at he
                cases he
                rintro _ _ ⟨⟩
              · split at he
                · next hclose =>
                  cases he
                  exact blames_of_expect hclose
                · cases he
          · cases he
            rintro _ _ ⟨⟩
    · cases he
      rintro _ _ ⟨⟩

theorem blames_power (h : Refusing ν last ts.length)
    (he : (parsePower last ts : Except Error (Parsed ν ts.length)) = .error e) : Blames ν ts e := by
  unfold parsePower at he
  split at he
  · next hbase =>
    cases he
    exact h.blames_operand hbase
  · cases he
  · next base t rest hlt hbase =>
    dsimp only at he
    split at he
    · split at he
      · next hexponent =>
        cases he
        have hsub : t :: rest ⊆ ts := ((sound last ts.length).reads_operand hbase).subset
        refine (h.signed (Nat.lt_trans (Nat.lt_succ_self _) hlt) hexponent).mono ?_
        exact List.Subset.trans (List.subset_cons_self t rest) hsub
      · cases he
    · cases he

theorem blames_signed (h : Refusing ν last ts.length)
    (he : (parseSigned last ts : Except Error (Parsed ν ts.length)) = .error e) : Blames ν ts e := by
  unfold parseSigned at he
  split at he
  · cases he
    unfold pastEnd
    split <;> rintro _ _ ⟨⟩
  · next t rest =>
    split at he
    · split at he
      · next hinner =>
        cases he
        exact (h.signed (by simp) hinner).mono (List.subset_cons_self _ _)
      · cases he
    · split at he
      · split at he
        · next hinner =>
          cases he
          exact (h.signed (by simp) hinner).mono (List.subset_cons_self _ _)
        · cases he
      · exact h.blames_power he

theorem blames_productTail (h : Refusing ν last ts.length) (he : parseProductTail last left ts = .error e) :
    Blames ν ts e := by
  unfold parseProductTail at he
  split at he
  · cases he
  · next t rest =>
    split at he
    · cases he
    · split at he
      · next hright =>
        cases he
        exact (h.signed (by simp) hright).mono (List.subset_cons_self _ _)
      · next right rest' hlt hright =>
        dsimp only at he
        split at he
        · next hmore =>
          cases he
          have hsub : rest' ⊆ rest := ((sound last _).signed (Nat.lt_succ_self _) hright).subset
          refine (h.productTail (Nat.lt_trans hlt (Nat.lt_succ_self _)) hmore).mono ?_
          exact List.subset_cons_of_subset t hsub
        · cases he

theorem blames_product (h : Refusing ν last ts.length)
    (he : (parseProduct last ts : Except Error (Parsed ν ts.length)) = .error e) : Blames ν ts e := by
  unfold parseProduct at he
  split at he
  · next hleft =>
    cases he
    exact h.blames_signed hleft
  · next left rest hlt hleft =>
    split at he
    · next hmore =>
      cases he
      exact (h.productTail hlt hmore).mono ((sound last ts.length).reads_signed hleft).subset
    · cases he

theorem blames_sumTail (h : Refusing ν last ts.length) (he : parseSumTail last left ts = .error e) :
    Blames ν ts e := by
  unfold parseSumTail at he
  split at he
  · cases he
  · next t rest =>
    split at he
    · cases he
    · split at he
      · next hright =>
        cases he
        exact (h.product (by simp) hright).mono (List.subset_cons_self _ _)
      · next right rest' hlt hright =>
        dsimp only at he
        split at he
        · next hmore =>
          cases he
          have hsub : rest' ⊆ rest := ((sound last _).product (Nat.lt_succ_self _) hright).subset
          refine (h.sumTail (Nat.lt_trans hlt (Nat.lt_succ_self _)) hmore).mono ?_
          exact List.subset_cons_of_subset t hsub
        · cases he

theorem blames_sum (h : Refusing ν last ts.length)
    (he : (parseSum last ts : Except Error (Parsed ν ts.length)) = .error e) : Blames ν ts e := by
  unfold parseSum at he
  split at he
  · next hleft =>
    cases he
    exact h.blames_product hleft
  · next left rest hlt hleft =>
    split at he
    · next hmore =>
      cases he
      exact (h.sumTail hlt hmore).mono ((sound last ts.length).reads_product hleft).subset
    · cases he

end Refusing

theorem refusing (last : Token) (n : Nat) : Refusing ν last n := by
  induction n with
  | zero => exact ⟨by simp, by simp, by simp, by simp, by simp⟩
  | succ n ih =>
      have shorter : ∀ {ts : List Token}, ts.length < n + 1 → Refusing ν last ts.length := by
        intro ts hts
        have hle : ts.length ≤ n := Nat.le_of_lt_succ hts
        exact ⟨fun h ↦ ih.sum (Nat.lt_of_lt_of_le h hle), fun h ↦ ih.sumTail (Nat.lt_of_lt_of_le h hle),
          fun h ↦ ih.product (Nat.lt_of_lt_of_le h hle), fun h ↦ ih.productTail (Nat.lt_of_lt_of_le h hle),
          fun h ↦ ih.signed (Nat.lt_of_lt_of_le h hle)⟩
      exact ⟨fun h ↦ (shorter h).blames_sum, fun h ↦ (shorter h).blames_sumTail,
        fun h ↦ (shorter h).blames_product, fun h ↦ (shorter h).blames_productTail,
        fun h ↦ (shorter h).blames_signed⟩

theorem blames_of_parseSum (h : (parseSum last ts : Except Error (Parsed ν ts.length)) = .error e) :
    Blames ν ts e :=
  (refusing last (ts.length + 1)).sum (Nat.lt_succ_self _) h

theorem blames_of_finish {α : Type} {what : String} {a : α} (h : finish what last rest a = .error e) :
    Blames ν us e := by
  unfold finish refuse at h
  split at h
  · cases h
  · cases h
    rintro _ _ ⟨⟩

theorem blames_of_ofTokens (h : (ofTokens ts : Except Error (Expr ν)) = .error e) : Blames ν ts e := by
  unfold ofTokens at h
  split at h
  · cases h
    rintro _ _ ⟨⟩
  · rcases bind_eq_error_iff.mp h with h | ⟨⟨⟨e', rest⟩, hlt⟩, -, h⟩
    · exact blames_of_parseSum h
    · exact blames_of_finish h

end Expr

theorem Equation.blames_of_ofTokens {ν : Type} [Scalar ν] {ts : List Token} {e : Error}
    (h : (Equation.ofTokens ts : Except Error (Equation ν)) = .error e) : Expr.Blames ν ts e := by
  unfold Equation.ofTokens at h
  split at h
  · cases h
    rintro _ _ ⟨⟩
  · rcases bind_eq_error_iff.mp h with h | ⟨⟨⟨lhs, rest⟩, hlt⟩, hl, h⟩
    · exact Expr.blames_of_parseSum h
    · rcases bind_eq_error_iff.mp h with h | ⟨rest', hexpect, h⟩
      · exact Expr.blames_of_expect h
      · rcases bind_eq_error_iff.mp h with h | ⟨⟨⟨rhs, rest''⟩, hlt'⟩, -, h⟩
        · have hsub := List.Subset.trans (Expr.expect_subset hexpect) (Expr.reads_of_parseSum hl).subset
          exact (Expr.blames_of_parseSum h).mono hsub
        · exact Expr.blames_of_finish h

namespace Expr

variable {ν : Type} [Scalar ν] {v : Vocabulary} {text : String} {ts : List Token}

theorem isSome_read?_of_tokenize (h : Token.tokenize v text = .ok ts) {t : Token} (ht : t ∈ ts)
    (hkind : t.kind = .number) :
    (Scalar.read? t.text : Option ν).isSome = true ↔ Token.ExponentEnds t.text.toList := by
  have hnumber : Token.IsNumber t.text.toList := (Token.fits_of_tokenize h t ht).isNumber hkind
  rw [Scalar.isSome_read?_iff hnumber.startsLiteral, hnumber.isDecimal_iff]

/-- **Only what goes on after an exponent keeps a number from being read.**  A number that does not is a decimal
literal, and denotes a scalar; a parser that refuses the text of a number has come upon one that does. -/
theorem numerals_of_tokenize (h : Token.tokenize v text = .ok ts) :
    (∀ t ∈ ts, t.kind = .number →
      (Numeral.IsDecimal t.text.toList ↔ Token.ExponentEnds t.text.toList) ∧
      ((Scalar.read? t.text : Option ν).isSome = true ↔ Token.ExponentEnds t.text.toList)) ∧
    ∀ position s, ((parse v text : Except Error (Expr ν)) = .error (.syntaxError position (.numeral s)) ∨
        (Equation.parse v text : Except Error (Equation ν)) = .error (.syntaxError position (.numeral s))) →
      ∃ t ∈ ts, t.kind = .number ∧ t.start = position ∧ t.text = s ∧ ¬Token.ExponentEnds s.toList := by
  refine ⟨fun t ht hkind ↦ ?literal, fun position s hrefused ↦ ?refused⟩
  case literal =>
    exact ⟨((Token.fits_of_tokenize h t ht).isNumber hkind).isDecimal_iff, isSome_read?_of_tokenize h ht hkind⟩
  case refused =>
    rw [parse, Equation.parse, h] at hrefused
    have hblames : Blames ν ts (.syntaxError position (.numeral s)) :=
      hrefused.elim blames_of_ofTokens Equation.blames_of_ofTokens
    obtain ⟨t, ht, hkind, hstart, rfl, hnone⟩ := hblames position s rfl
    refine ⟨t, ht, hkind, hstart, rfl, fun hends ↦ ?_⟩
    have hsome : (Scalar.read? t.text : Option ν).isSome = true := (isSome_read?_of_tokenize h ht hkind).mpr hends
    rw [hnone] at hsome
    cases hsome

/-- A first number that cannot be read is what the parser names. -/
theorem ofTokens_of_read?_eq_none {t : Token} (hkind : t.kind = .number)
    (hread : (Scalar.read? t.text : Option ν) = none) (ts : List Token) :
    (ofTokens (t :: ts) : Except Error (Expr ν)) = .error (.syntaxError t.start (.numeral t.text)) := by
  have hlast : (t :: ts).getLast? = some ((t :: ts).getLast (List.cons_ne_nil t ts)) :=
    List.getLast?_eq_some_getLast _
  have hoperand : ∀ last, (parseSum last (t :: ts) : Except Error (Parsed ν (t :: ts).length)) =
      .error (.syntaxError t.start (.numeral t.text)) := by
    intro last
    simp [parseSum, parseProduct, parseSigned, parsePower, parseOperand, hkind, hread]
  rw [ofTokens, hlast]
  dsimp only
  rw [hoperand]
  rfl

/-- A number with a point and an exponent before a symbol. -/
theorem numerals_of_tokenize_mole :
    Token.tokenize (.ofList ["n"]) "6.02e23n" =
        .ok [⟨.number, 0, 7, "6.02e23"⟩, ⟨.star, 7, 8, "*"⟩, ⟨.identifier, 7, 8, "n"⟩, ⟨.stop, 8, 8, ""⟩] ∧
      Numeral.IsDecimal "6.02e23".toList ∧ (Scalar.read? "6.02e23" : Option ℚ).isSome = true := by
  have htokens : Token.tokenize (.ofList ["n"]) "6.02e23n" =
      .ok [⟨.number, 0, 7, "6.02e23"⟩, ⟨.star, 7, 8, "*"⟩, ⟨.identifier, 7, 8, "n"⟩, ⟨.stop, 8, 8, ""⟩] :=
    eq_ok_of_toOption (by decide +kernel)
  obtain ⟨hliteral, hread⟩ := (numerals_of_tokenize (ν := ℚ) htokens).1 _ List.mem_cons_self rfl
  have hends : Token.ExponentEnds "6.02e23".toList := by decide
  exact ⟨htokens, hliteral.mpr hends, hread.mpr hends⟩

/-- A point after an exponent is taken into the number, which then is no literal, and is refused. -/
theorem parse_point_after_exponent :
    Token.tokenize .empty "1e2.5" = .ok [⟨.number, 0, 5, "1e2.5"⟩, ⟨.stop, 5, 5, ""⟩] ∧
      ¬Numeral.IsDecimal "1e2.5".toList ∧
      (parse .empty "1e2.5" : Except Error (Expr ℚ)) = .error (.syntaxError 0 (.numeral "1e2.5")) := by
  have htokens : Token.tokenize .empty "1e2.5" = .ok [⟨.number, 0, 5, "1e2.5"⟩, ⟨.stop, 5, 5, ""⟩] :=
    eq_ok_of_toOption (by decide +kernel)
  have hends : ¬Token.ExponentEnds "1e2.5".toList := by decide
  refine ⟨htokens, fun hliteral ↦ hends (Token.exponentEnds_of_isDecimal hliteral), ?_⟩
  have hread : (Scalar.read? "1e2.5" : Option ℚ) = none := by decide +kernel
  rw [parse, htokens]
  exact ofTokens_of_read?_eq_none rfl hread _

end Expr

end FormulaNet

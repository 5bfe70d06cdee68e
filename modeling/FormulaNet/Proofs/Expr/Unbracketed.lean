import FormulaNet.Proofs.Expr.Cursor
import FormulaNet.Proofs.Expr.Grammar
import FormulaNet.Proofs.Token.Readings

/-!
# Formulas without signs and brackets

Where there are neither signs nor brackets, operands and operators take turns.  So once the stars are left out it is
still known where they were: between every two operands that have become neighbours there was one, or a doubled one.
-/

namespace FormulaNet

namespace Expr

open Token (bare unstarred)

variable {ν : Type} [Scalar ν] {part : Part} {t o : Token} {ts ls rs : List Token} {e : Expr ν}

/-! ## Places -/

theorem map_bare_mid (ls : List Token) (t : Token) (rs : List Token) :
    (ls ++ t :: rs).map bare = ls.map bare ++ t.bare :: rs.map bare := by
  rw [List.map_append, List.map_cons]

/-- What tokens write does not depend on where they stand. -/
theorem Writes.map_bare (h : Writes part ts e) : Writes part (ts.map bare) e := by
  induction h with
  | product _ ih => exact .product ih
  | sum _ hop _ ihl ihr =>
      rw [map_bare_mid]
      exact .sum ihl hop ihr
  | signed _ ih => exact .signed ih
  | factor _ hop _ ihl ihr =>
      rw [map_bare_mid]
      exact .factor ihl hop ihr
  | minus hkind _ ih => exact .minus hkind ih
  | plus hkind _ ih => exact .plus hkind ih
  | power _ ih => exact .power ih
  | operand _ ih => exact .operand ih
  | raised _ hkind _ ihb ihe =>
      rw [map_bare_mid]
      exact .raised ihb hkind ihe
  | @number t x hkind hread => exact .number (t := t.bare) hkind hread
  | @symbol t hkind hname => exact .symbol (t := t.bare) hkind hname
  | @brackets t u ts e ht _ hu ih =>
      rw [List.map_cons, List.map_append]
      exact .brackets (t := t.bare) (u := u.bare) ht ih hu
  | @call n t u ts f e hn hname ht _ hu ih =>
      rw [List.map_cons, List.map_cons, List.map_append]
      exact .call (n := n.bare) (t := t.bare) (u := u.bare) hn hname ht ih hu

/-! ## Turns -/

/-- A number or an identifier. -/
def IsOperand (t : Token) : Prop := t.kind = .number ∨ t.kind = .identifier

/-- Operands, with an operator between every two. -/
inductive Alternates : List Token → Prop
  | single {t : Token} : IsOperand t → Alternates [t]
  | more {t o : Token} {ts : List Token} : IsOperand t → o.kind ∈ [Token.Kind.star, .slash, .caret] →
      Alternates ts → Alternates (t :: o :: ts)

theorem Alternates.append (hl : Alternates ls) (ho : o.kind ∈ [Token.Kind.star, .slash, .caret])
    (hr : Alternates rs) : Alternates (ls ++ o :: rs) := by
  induction hl with
  | single ht => exact .more ht ho hr
  | more ht ho' _ ih => exact .more ht ho' ih

/-- A sign or an open bracket. -/
def Opens (t : Token) : Prop := t.kind ∈ [Token.Kind.plus, .minus, .openBracket]

instance : Decidable (Opens t) := inferInstanceAs (Decidable (_ ∈ _))

theorem Writes.alternates (h : Writes part ts e) (hts : ∀ t ∈ ts, ¬Opens t) : Alternates ts := by
  induction h with
  | product _ ih | signed _ ih | power _ ih | operand _ ih => exact ih hts
  | sum _ hop =>
      rw [List.forall_mem_append, List.forall_mem_cons] at hts
      refine absurd ?_ hts.2.1
      rcases kind_of_sumOperator? hop with hkind | hkind <;> simp [Opens, hkind]
  | factor _ hop _ ihl ihr =>
      rw [List.forall_mem_append, List.forall_mem_cons] at hts
      refine (ihl hts.1).append ?_ (ihr hts.2.2)
      rcases kind_of_productOperator? hop with hkind | hkind <;> simp [hkind]
  | minus hkind | plus hkind => exact absurd (by simp [Opens, hkind]) (hts _ List.mem_cons_self)
  | raised _ hkind _ ihb ihe =>
      rw [List.forall_mem_append, List.forall_mem_cons] at hts
      exact (ihb hts.1).append (by simp [hkind]) (ihe hts.2.2)
  | number hkind => exact .single (.inl hkind)
  | symbol hkind => exact .single (.inr hkind)
  | brackets hkind => exact absurd (by simp [Opens, hkind]) (hts _ List.mem_cons_self)
  | call _ _ hkind => exact absurd (by simp [Opens, hkind]) (hts _ (.tail _ (.head _)))

/-! ## Stars between neighbours -/

/-- A sign of multiplication without a place. -/
def star : Token := ⟨.star, 0, 0, "*"⟩

/-- A power that is written with stars, without a place. -/
def doubleStar : Token := ⟨.caret, 0, 0, "**"⟩

/-- All ways to put a star or a doubled star between every two neighbours that are operands. -/
def joins : List Token → List (List Token)
  | [] => [[]]
  | [t] => [[t]]
  | t :: u :: ts =>
    if t.endsOperand && u.startsOperand then
      (joins (u :: ts)).flatMap fun us ↦ [t :: star :: us, t :: doubleStar :: us]
    else (joins (u :: ts)).map (t :: ·)

section Joins

variable {u : Token} {us : List Token}

theorem cons_mem_joins (h : (t.endsOperand && u.startsOperand) = false) (hus : us ∈ joins (u :: ts)) :
    t :: us ∈ joins (t :: u :: ts) := by
  rw [joins, h]
  exact List.mem_map_of_mem hus

theorem cons_mem_joins_of_isStars (h : (t.endsOperand && u.startsOperand) = true) (ho : o = star ∨ o = doubleStar)
    (hus : us ∈ joins (u :: ts)) : t :: o :: us ∈ joins (t :: u :: ts) := by
  rw [joins, if_pos h]
  refine List.mem_flatMap.mpr ⟨us, hus, ?_⟩
  rcases ho with rfl | rfl
  · exact .head _
  · exact .tail _ (.head _)

theorem IsOperand.endsOperand (h : IsOperand t) : t.endsOperand = true := by
  rcases h with h | h <;> simp [Token.endsOperand, h]

theorem IsOperand.startsOperand (h : IsOperand t) : t.startsOperand = true := by
  rcases h with h | h <;> simp [Token.startsOperand, h]

theorem isStars_of_notMem (hfits : t.Fits) (hkind : t.kind ∉ [Token.Kind.star, .caret]) : t.isStars = false := by
  have hstar := hfits.star_notMem hkind
  have htext : t.text ≠ "*" ∧ t.text ≠ "**" := by
    constructor <;>
      · intro heq
        rw [heq] at hstar
        exact hstar (by simp)
  simp [Token.isStars, htext]

theorem bare_of_isStars (hfits : t.Fits) (hkind : t.kind ∈ [Token.Kind.star, .slash, .caret])
    (hstars : t.isStars = true) : t.bare = star ∨ t.bare = doubleStar := by
  have hmarks : ∀ m ∈ Token.markTexts, m.1 ∈ [Token.Kind.star, .slash, .caret] → m.2 = "*" ∨ m.2 = "**" →
      m = (.star, "*") ∨ m = (.caret, "**") := by decide
  have hmark : (t.kind, t.text) ∈ Token.markTexts := by
    refine hfits.mem_markTexts ?_
    simp only [List.mem_cons, List.not_mem_nil, or_false] at hkind
    rcases hkind with hkind | hkind | hkind <;> simp [hkind]
  refine (hmarks _ hmark hkind (by simpa [Token.isStars] using hstars)).imp (fun h ↦ ?_) fun h ↦ ?_
  · obtain ⟨hkind, htext⟩ := Prod.mk.inj h
    rw [bare, hkind, htext, star]
  · obtain ⟨hkind, htext⟩ := Prod.mk.inj h
    rw [bare, hkind, htext, doubleStar]

/-- Where nothing opens but for the stars, nothing opens. -/
theorem not_opens_of_unstarred (hfits : ∀ t ∈ ts, t.Fits) (h : ∀ t ∈ unstarred ts, ¬Opens t) :
    ∀ t ∈ ts, ¬Opens t := by
  intro t ht hopen
  have hstars : t.isStars = false := by
    refine isStars_of_notMem (hfits t ht) fun hkind ↦ ?_
    simp only [Opens, List.mem_cons, List.not_mem_nil, or_false] at hopen hkind
    rcases hkind with hkind | hkind <;> simp [hkind] at hopen
  exact h t.bare (List.mem_map_of_mem (List.mem_filter.mpr ⟨ht, by simp [hstars]⟩)) hopen

theorem unstarred_operand (ht : IsOperand t) (hfits : t.Fits) : unstarred (t :: ts) = t.bare :: unstarred ts :=
  Token.unstarred_cons (isStars_of_notMem hfits (by rcases ht with h | h <;> simp [h]))

/-- Operands in turn with operators begin with an operand, also when what follows them is looked at. -/
theorem Alternates.exists_head (h : Alternates ts) (hfits : ∀ t ∈ ts, t.Fits) (us : List Token) :
    ∃ t rest, IsOperand t ∧ unstarred (ts ++ us) = t.bare :: rest := by
  cases h with
  | single ht => exact ⟨_, _, ht, unstarred_operand ht (hfits _ (.head _))⟩
  | more ht => exact ⟨_, _, ht, unstarred_operand ht (hfits _ (.head _))⟩

/-- The tokens are one of the ways to put stars back, if what follows them is and begins with no operand. -/
theorem Alternates.mem_joins (h : Alternates ts) (hfits : ∀ t ∈ ts, t.Fits) (hu : u.startsOperand = false)
    (hus : unstarred (u :: us) = u.bare :: unstarred us)
    (hmem : (u :: us).map bare ∈ joins (unstarred (u :: us))) :
    (ts ++ u :: us).map bare ∈ joins (unstarred (ts ++ u :: us)) := by
  induction h with
  | @single t ht =>
      rw [hus] at hmem
      rw [List.cons_append, List.nil_append, unstarred_operand ht (hfits t (.head _)), hus, List.map_cons]
      exact cons_mem_joins (by rw [Bool.and_eq_false_iff]; exact .inr hu) hmem
  | @more t o ts ht ho hts ih =>
      obtain ⟨hfit, hfito, hfits⟩ : t.Fits ∧ o.Fits ∧ ∀ t ∈ ts, t.Fits := by
        rwa [List.forall_mem_cons, List.forall_mem_cons] at hfits
      obtain ⟨x, rest, hx, hrest⟩ := hts.exists_head hfits (u :: us)
      have hmem' := ih hfits
      rw [hrest] at hmem'
      rw [List.cons_append, List.cons_append, unstarred_operand ht hfit, List.map_cons, List.map_cons]
      cases hstars : o.isStars with
      | true =>
          rw [Token.unstarred_cons_of_isStars hstars, hrest]
          have hboth : (t.bare.endsOperand && x.bare.startsOperand) = true := by
            rw [Bool.and_eq_true]
            exact ⟨IsOperand.endsOperand (t := t.bare) ht, IsOperand.startsOperand (t := x.bare) hx⟩
          exact cons_mem_joins_of_isStars hboth (bare_of_isStars hfito ho hstars) hmem'
      | false =>
          have hoperator : o.bare.startsOperand = false ∧ o.bare.endsOperand = false := by
            simp only [List.mem_cons, List.not_mem_nil, or_false] at ho
            rcases ho with ho | ho | ho <;> simp [Token.bare, Token.startsOperand, Token.endsOperand, ho]
          rw [Token.unstarred_cons hstars, hrest]
          refine cons_mem_joins (by rw [Bool.and_eq_false_iff]; exact .inr hoperator.1) ?_
          exact cons_mem_joins (by rw [Bool.and_eq_false_iff]; exact .inl hoperator.2) hmem'

end Joins

/-! ## Equations -/

section Equations

variable {q : Equation ν} {last : Token} {body : List Token}

theorem kind_ne_comma_of_ofTokens (hlast : last.kind = .stop) (hbody : ∀ t ∈ body, t.kind ≠ .stop)
    (hq : Equation.ofTokens (body ++ [last]) = .ok q) : ∀ t ∈ body ++ [last], t.kind ≠ .comma := by
  obtain ⟨ls, t, rs, rfl, ht, hl, hr⟩ := (ofTokens_equation_eq_ok_iff hlast hbody).mp hq
  refine List.forall_mem_append.mpr ⟨List.forall_mem_append.mpr ⟨hl.kind_ne_comma, List.forall_mem_cons.mpr
    ⟨by simp [ht], hr.kind_ne_comma⟩⟩, List.forall_mem_singleton.mpr (by simp [hlast])⟩

/-- The equation that tokens write is also written by them without their places. -/
theorem ofTokens_map_bare (hlast : last.kind = .stop) (hbody : ∀ t ∈ body, t.kind ≠ .stop)
    (hq : Equation.ofTokens (body ++ [last]) = .ok q) :
    Equation.ofTokens ((body ++ [last]).map bare) = .ok q := by
  obtain ⟨ls, t, rs, rfl, ht, hl, hr⟩ := (ofTokens_equation_eq_ok_iff hlast hbody).mp hq
  rw [List.map_append, List.map_singleton]
  have hend : last.bare.kind = .stop := hlast
  refine (ofTokens_equation_eq_ok_iff hend ?_).mpr
    ⟨_, t.bare, _, map_bare_mid ls t rs, ht, hl.map_bare, hr.map_bare⟩
  rintro _ hmem
  obtain ⟨u, hu, rfl⟩ := List.mem_map.mp hmem
  exact hbody u hu

/-- **The tokens of an equation without signs and brackets are those but for the stars, with a star or a doubled
star between every two neighbours that are operands.** -/
theorem map_bare_mem_joins (hlast : last.kind = .stop) (hbody : ∀ t ∈ body, t.kind ≠ .stop)
    (hq : Equation.ofTokens (body ++ [last]) = .ok q) (hfits : ∀ t ∈ body ++ [last], t.Fits)
    (hopens : ∀ t ∈ body, ¬Opens t) : (body ++ [last]).map bare ∈ joins (unstarred (body ++ [last])) := by
  obtain ⟨ls, t, rs, rfl, ht, hl, hr⟩ := (ofTokens_equation_eq_ok_iff hlast hbody).mp hq
  rw [List.forall_mem_append, List.forall_mem_cons] at hopens
  rw [List.append_assoc, List.cons_append] at hfits ⊢
  obtain ⟨hfitsl, hfitt, hfitsr, hfitlast⟩ :
      (∀ t ∈ ls, t.Fits) ∧ t.Fits ∧ (∀ t ∈ rs, t.Fits) ∧ last.Fits := by
    simpa [List.forall_mem_append, or_imp, forall_and] using hfits
  have hend : unstarred [last] = [last.bare] :=
    Token.unstarred_cons (isStars_of_notMem hfitlast (by simp [hlast]))
  have hright : (rs ++ [last]).map bare ∈ joins (unstarred (rs ++ [last])) := by
    refine (hr.alternates hopens.2.2).mem_joins hfitsr (by simp [Token.startsOperand, hlast]) hend ?_
    rw [hend]
    exact .head _
  have hmid : unstarred (t :: (rs ++ [last])) = t.bare :: unstarred (rs ++ [last]) :=
    Token.unstarred_cons (isStars_of_notMem hfitt (by simp [ht]))
  refine (hl.alternates hopens.1).mem_joins hfitsl (by simp [Token.startsOperand, ht]) hmid ?_
  obtain ⟨x, rest, hx, hrest⟩ := (hr.alternates hopens.2.2).exists_head hfitsr [last]
  rw [hrest] at hright
  rw [hmid, hrest, List.map_cons]
  exact cons_mem_joins (by simp [Token.bare, Token.endsOperand, ht]) hright

end Equations

end Expr

end FormulaNet

import FormulaNet.Proofs.Expr.Grammar
import FormulaNet.Proofs.Notation.Separator
import FormulaNet.Proofs.Rearrangement.Solver
import FormulaNet.Proofs.Token.Layout

/-!
# Formulas with one sign of equality

Before the solver reads a formula it counts the signs of equality in its text, a doubled sign once.  However many of
them follow one another, there are as many among the tokens (`countEquals_of_tokenize`), and an equation has one
among its tokens.  So the solver turns away no formula that is an equation for the parser.
-/

namespace FormulaNet

open Notation (countEquals)

/-! ## Signs of equality among tokens -/

namespace Token

open Text

variable {v : Vocabulary} {p : Nat} {cs w : List Char} {t : Token} {ts us : List Token} {text : String}

/-- A sign of equality says just that, and no other token has one in its text. -/
def SaysEquals (t : Token) : Prop :=
  t.kind = .equals ∧ t.text = "=" ∨ t.kind ≠ .equals ∧ '=' ∉ t.text.toList

theorem Continues.notMem_equals {pointSeen : Bool} (h : Continues pointSeen cs) : '=' ∉ cs := by
  induction h with
  | stop => exact List.not_mem_nil
  | digit hdigit _ ih =>
      refine List.not_mem_cons_of_ne_of_not_mem ?_ ih
      rintro rfl
      exact absurd hdigit (by decide)
  | point _ ih => exact List.not_mem_cons_of_ne_of_not_mem (by decide) ih
  | exponent hmark hsign _ _ ih =>
      refine List.not_mem_cons_of_ne_of_not_mem ?_ (List.not_mem_append ?_ ih)
      · rintro rfl
        exact absurd hmark (by decide)
      · simp only [List.mem_cons, List.not_mem_nil, or_false] at hsign
        rcases hsign with rfl | rfl | rfl <;> decide

theorem Fits.saysEquals (h : t.Fits) : SaysEquals t := by
  have hmarks : ∀ m ∈ markTexts, m.1 = .equals ∧ m.2 = "=" ∨ m.1 ≠ .equals ∧ '=' ∉ m.2.toList := by decide
  rw [Fits] at h
  split at h
  · next hkind => exact .inr ⟨by simp [hkind], by simp [h]⟩
  · next hkind => exact .inr ⟨by simp [hkind], h.continues.notMem_equals⟩
  · next hkind => exact .inr ⟨by simp [hkind], fun hmem ↦ absurd (h.2 '=' hmem) (by decide)⟩
  · exact hmarks _ h

/-! ## Counting -/

theorem count_equals_append (hw : '=' ∉ w) :
    (replaceAll ['=', '='] ['='] (w ++ cs)).count '=' = (replaceAll ['=', '='] ['='] cs).count '=' := by
  induction w with
  | nil => rfl
  | cons c w ih =>
      obtain ⟨hc, hw⟩ := not_or.mp (mt List.mem_cons.mpr hw)
      have hother : ¬['=', '='] <+: c :: (w ++ cs) := fun h ↦ hc (List.cons_prefix_cons.mp h).1
      rw [List.cons_append, replaceAll_of_not_isPrefix hother, List.count_cons_of_ne (Ne.symm hc), ih hw]

theorem Covers.count_equals (h : Covers p cs ts) (hts : ∀ t ∈ ts, SaysEquals t) :
    (replaceAll ['=', '='] ['='] cs).count '=' = ts.countP (·.kind = .equals) := by
  induction h with
  | stop => simp
  | @blank _ c cs _ hblank _ ih =>
      have hc : '=' ∉ [c] := by
        intro h
        obtain rfl := List.mem_singleton.mp h
        exact absurd hblank (by decide)
      exact (count_equals_append hc).trans (ih hts)
  | @token kind text p q w cs ts _ _ hspells _ hequals _ ih =>
      rw [List.forall_mem_cons] at hts
      rw [List.countP_cons, ← ih hts.2]
      rcases hts.1 with ⟨hkind, htext⟩ | ⟨hkind, htext⟩
      · -- a single sign, which is not doubled
        obtain rfl : kind = .equals := hkind
        obtain rfl : text = "=" := htext
        obtain rfl : w = ['='] := by simpa [Spells] using hspells
        have hsingle : ¬['=', '='] <+: '=' :: cs := by
          rintro ⟨ds, hds⟩
          obtain ⟨rfl⟩ := hds
          exact hequals rfl rfl
        rw [List.singleton_append, replaceAll_of_not_isPrefix hsingle]
        simp
      · have hw : '=' ∉ w := by
          rcases hspells with rfl | hbracket
          · exact htext
          · simp only [List.mem_cons, Prod.mk.injEq, List.not_mem_nil, or_false] at hbracket
            rcases hbracket with ⟨-, rfl, -⟩ | ⟨-, rfl, -⟩ <;> decide
        have hother : kind ≠ .equals := hkind
        rw [count_equals_append hw]
        simp [hother]
  | @doubled p cs ts _ ih =>
      rw [List.forall_mem_cons] at hts
      rw [replaceAll_of_isPrefix ⟨cs, rfl⟩, List.countP_cons, ← ih hts.2]
      simp

theorem Joined.countP_equals (h : Joined ts us) :
    us.countP (·.kind = .equals) = ts.countP (·.kind = .equals) := by
  induction h with
  | nil => rfl
  | single => rfl
  | @product t u ts us _ _ ih =>
      rw [List.countP_cons, List.countP_cons_of_neg (by simp), ih, ← List.countP_cons]
  | @apart t u ts us _ _ ih => rw [List.countP_cons, ih, ← List.countP_cons]

/-- **As many signs of equality are counted in a text as among its tokens.** -/
theorem countEquals_of_tokenize (h : tokenize v text = .ok ts) :
    countEquals text = ts.countP (·.kind = .equals) := by
  obtain ⟨us, hcovers, hjoined⟩ := exists_covers h
  rw [hjoined.countP_equals, countEquals]
  exact hcovers.count_equals fun t ht ↦ (fits_of_tokenize h t (hjoined.subset ht)).saysEquals

/-- The end mark stays the last of the tokens. -/
theorem Joined.exists_body (h : Joined ts us) {body : List Token} {last : Token} (hts : ts = body ++ [last])
    (hbody : ∀ t ∈ body, t.kind ≠ .stop) : ∃ body', us = body' ++ [last] ∧ ∀ t ∈ body', t.kind ≠ .stop := by
  have uncons : ∀ {t u : Token} {ts body : List Token}, t :: u :: ts = body ++ [last] →
      ∃ rest, body = t :: rest ∧ u :: ts = rest ++ [last] := by
    intro t u ts body h
    cases body with
    | nil => cases h
    | cons t' rest =>
        obtain ⟨rfl, hrest⟩ := List.cons.inj h
        exact ⟨rest, rfl, hrest⟩
  induction h generalizing body with
  | nil => simp at hts
  | single => exact ⟨body, hts, hbody⟩
  | @product t u _ _ _ _ ih =>
      obtain ⟨rest, rfl, hrest⟩ := uncons hts
      rw [List.forall_mem_cons] at hbody
      obtain ⟨body', rfl, hbody'⟩ := ih hrest hbody.2
      exact ⟨t :: times u.start :: body', rfl, by simpa using ⟨hbody.1, hbody'⟩⟩
  | @apart t _ _ _ _ _ ih =>
      obtain ⟨rest, rfl, hrest⟩ := uncons hts
      rw [List.forall_mem_cons] at hbody
      obtain ⟨body', rfl, hbody'⟩ := ih hrest hbody.2
      exact ⟨t :: body', rfl, List.forall_mem_cons.mpr ⟨hbody.1, hbody'⟩⟩

theorem exists_body_of_tokenize (h : tokenize v text = .ok ts) :
    ∃ body last, ts = body ++ [last] ∧ last.kind = .stop ∧ ∀ t ∈ body, t.kind ≠ .stop := by
  obtain ⟨us, hcovers, hjoined⟩ := exists_covers h
  obtain ⟨body, hus, hbody⟩ := hcovers.ends
  obtain ⟨body', hts, hbody'⟩ := hjoined.exists_body hus fun t ht ↦ (hbody t ht).1
  exact ⟨body', _, hts, rfl, hbody'⟩

end Token

/-! ## Equations -/

theorem Equation.countEquals_of_parse {ν : Type} [Scalar ν] {v : Vocabulary} {text : String} {q : Equation ν}
    (h : Equation.parse v text = .ok q) : countEquals text = 1 := by
  obtain ⟨ts, hts, hq⟩ := bind_eq_ok_iff.mp h
  obtain ⟨body, last, rfl, hlast, hbody⟩ := Token.exists_body_of_tokenize hts
  obtain ⟨ls, t, rs, rfl, ht, hl, hr⟩ := (Expr.ofTokens_equation_eq_ok_iff hlast hbody).mp hq
  have none : ∀ {ws : List Token}, (∀ u ∈ ws, u.kind ≠ .equals) → ws.countP (·.kind = .equals) = 0 :=
    fun hws ↦ List.countP_eq_zero.mpr fun u hu ↦ by simpa using hws u hu
  rw [Token.countEquals_of_tokenize hts]
  simp [none hl.kind_ne_equals, none hr.kind_ne_equals, ht, hlast]

/-! ## The solver -/

namespace Solver

variable {ν : Type} {f : LoadedFormula ν} {target : Quantity} {values : ValueTable ν} {s : String}

theorem bindInputs_ne_notAnEquation {i : QuantityId} {qs : List Quantity} {env : Bindings ν} :
    bindInputs i values qs env ≠ .error (.notAnEquation s) := by
  induction qs generalizing env with
  | nil => rintro ⟨⟩
  | cons q qs ih =>
      rw [bindInputs]
      split
      · exact ih
      · split
        · exact ih
        · rintro ⟨⟩

variable [Scalar ν] {chain : List (Strategy ν)}

theorem solution_ne_notAnEquation : solution chain f target ≠ .error (.notAnEquation s) := by
  unfold solution Strategy.rearrange Strategy.rearrangeText
  dsimp only
  split <;> split <;> rintro ⟨⟩

theorem rawValue_ne_notAnEquation {e : Expr ν} {env : Bindings ν} :
    e.rawValue env ≠ .error (.notAnEquation s) := by
  induction e with
  | num x => rintro ⟨⟩
  | sym name =>
      rw [Expr.rawValue, Expr.symbolValue]
      split
      · rintro ⟨⟩
      · split <;> rintro ⟨⟩
  | neg e ih =>
      rw [Expr.rawValue]
      cases he : e.rawValue env with
      | ok x => rintro ⟨⟩
      | error cause => exact fun h ↦ ih (he.trans h)
  | bin op l r ihl ihr =>
      rw [Expr.rawValue]
      intro h
      rcases bind_eq_error_iff.mp h with h | ⟨x, -, h⟩
      · exact ihl h
      · rcases bind_eq_error_iff.mp h with h | ⟨y, -, h⟩
        · exact ihr h
        · unfold Expr.operate at h
          split at h <;> first | cases h | split at h <;> cases h
  | call g e ih =>
      rw [Expr.rawValue]
      intro h
      rcases bind_eq_error_iff.mp h with h | ⟨x, -, h⟩
      · exact ih h
      · unfold Expr.callFunction at h
        dsimp only at h
        split at h <;> cases h

theorem value_ne_notAnEquation {e : Expr ν} {env : Bindings ν} : e.value env ≠ .error (.notAnEquation s) := by
  intro h
  rcases bind_eq_error_iff.mp h with h | ⟨x, -, h⟩
  · exact rawValue_ne_notAnEquation h
  · split at h <;> cases h

/-- Only by the count does the solver turn a formula away as no equation. -/
theorem solve_eq_notAnEquation_iff : (solve chain f target values).1 = .error (.notAnEquation s) ↔
    countEquals (Notation.normalize f.formula.expression) ≠ 1 ∧ f.formula.expression = s := by
  rw [solve_fst, targetValue]
  split
  · next hcount => simp [hcount]
  · next hcount =>
    refine iff_of_false (fun h ↦ ?_) fun h ↦ hcount h.1
    rcases bind_eq_error_iff.mp h with h | ⟨env, -, h⟩
    · exact bindInputs_ne_notAnEquation h
    · rcases bind_eq_error_iff.mp h with h | ⟨e, -, h⟩
      · exact solution_ne_notAnEquation h
      · exact value_ne_notAnEquation h

/-- **What the parser takes for an equation, the solver does not turn away as none.**  Signs of equality are
counted in a text as among its tokens, so one of them is counted in the text of an equation. -/
theorem countEquals_eq_one_of_parse (v : Vocabulary) (text : String) :
    (∀ ts, Token.tokenize v text = .ok ts → countEquals text = ts.countP (·.kind = .equals)) ∧
      ∀ q : Equation ν, Equation.parse v text = .ok q → countEquals text = 1 ∧
        ∀ (chain : List (Strategy ν)) (f : LoadedFormula ν) (target : Quantity) (values : ValueTable ν) (s : String),
          Notation.normalize f.formula.expression = text →
            (solve chain f target values).1 ≠ .error (.notAnEquation s) := by
  refine ⟨fun ts hts ↦ Token.countEquals_of_tokenize hts, fun q hq ↦ ?_⟩
  have hcount : countEquals text = 1 := Equation.countEquals_of_parse hq
  refine ⟨hcount, fun chain f target values s htext hrefused ↦ ?_⟩
  rw [solve_eq_notAnEquation_iff, htext] at hrefused
  exact hrefused.1 hcount

/-- The text of an acceleration has one sign of equality.  With an acceleration and a velocity it gives a time,
and without them it is not for the lack of an equation that there is none. -/
theorem countEquals_eq_one_of_parse_speedingUp :
    Equation.parse (vocabulary (speedingUp ℚ) time) (Notation.normalize (speedingUp ℚ).formula.expression) =
        .ok (⟨.sym "a", .sym "v" / .sym "t"⟩ : Equation ℚ) ∧
      countEquals (Notation.normalize (speedingUp ℚ).formula.expression) = 1 ∧
      (solve (Solver.chain {}) (speedingUp ℚ) time (speeds 2 6)).1 = .ok 3 ∧
      ∀ s, (solve (Solver.chain {}) (speedingUp ℚ) time ∅).1 ≠ .error (.notAnEquation s) := by
  have hparse : Equation.parse (vocabulary (speedingUp ℚ) time) _ = _ := parse_speedingUp time_mem_quantities
  obtain ⟨-, hparsed⟩ := countEquals_eq_one_of_parse (ν := ℚ) (vocabulary (speedingUp ℚ) time)
    (Notation.normalize (speedingUp ℚ).formula.expression)
  obtain ⟨hcount, hgate⟩ := hparsed _ hparse
  exact ⟨hparse, hcount, solve_time, fun s ↦ hgate _ _ _ _ s rfl⟩

end Solver

end FormulaNet

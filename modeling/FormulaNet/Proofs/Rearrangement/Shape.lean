import FormulaNet.Proofs.Expr.Unbracketed
import FormulaNet.Proofs.Rearrangement.Gate
import FormulaNet.Proofs.Rearrangement.Textbook

/-!
# The shape of a text

A rule is found for a text by its shape, without blanks and stars, and for an equation by its print.  A text of a
rule's shape that is an equation for the parser need not be the rule's: with the blanks and the stars go the bounds of
words and the difference between a product and a power.  It is the rule's if it has all words of the rule's own text
and no doubled star; otherwise no rule covers the equation.
-/

namespace FormulaNet.Rule

open Text
open Token (kept readings spelledBy isNumeral inNumber continuesWord tokenize unstarred bare)
open FormulaNet.Expr (Opens joins)

variable {c : Char} {cs front back w : List Char} {v : Vocabulary}

/-! ## Punctuation at the ends -/

/-- What may be left out at the ends of a text. -/
def isStray (c : Char) : Bool := isBlank c || isPunctuation c

/-- What is left of a text without the punctuation at its ends. -/
def trimmed (cs : List Char) : List Char := ((cs.dropWhile isPunctuation).reverse.dropWhile isPunctuation).reverse

theorem trimmed_append (hfront : ∀ c ∈ front, isPunctuation c = true) (hback : ∀ c ∈ back, isPunctuation c = true) :
    trimmed (front ++ cs ++ back) = trimmed cs := by
  rw [trimmed, List.append_assoc, List.dropWhile_append_of_pos hfront, List.dropWhile_append, trimmed]
  split
  · next hall =>
    rw [List.isEmpty_iff.mp hall, List.dropWhile_eq_nil_iff.mpr hback]
  · rw [List.reverse_append, List.dropWhile_append_of_pos (fun c hc ↦ hback c (List.mem_reverse.mp hc))]

/-- A text is what is left of it, with punctuation at its ends. -/
theorem exists_trimmed (cs : List Char) : ∃ front back, cs = front ++ trimmed cs ++ back ∧
    (∀ c ∈ front, isPunctuation c = true) ∧ ∀ c ∈ back, isPunctuation c = true := by
  refine ⟨cs.takeWhile isPunctuation, ((cs.dropWhile isPunctuation).reverse.takeWhile isPunctuation).reverse, ?_,
    fun c hc ↦ List.mem_takeWhile_imp hc, fun c hc ↦ List.mem_takeWhile_imp (List.mem_reverse.mp hc)⟩
  rw [trimmed, List.append_assoc, ← List.reverse_append, List.takeWhile_append_dropWhile, List.reverse_reverse,
    List.takeWhile_append_dropWhile]

/-- Stray characters at the ends do not change the shape. -/
theorem shapeChars_append (hfront : ∀ c ∈ front, isStray c = true) (hback : ∀ c ∈ back, isStray c = true) :
    shapeChars (front ++ cs ++ back) = trimmed (kept cs) := by
  have hkept : ∀ {ds : List Char}, (∀ c ∈ ds, isStray c = true) → ∀ c ∈ kept ds, isPunctuation c = true := by
    intro ds hds c hc
    obtain ⟨hmem, hkeep⟩ := List.mem_filter.mp hc
    rw [Bool.and_eq_true, Bool.not_eq_true'] at hkeep
    simpa [isStray, hkeep.1] using hds c hmem
  calc shapeChars (front ++ cs ++ back) = trimmed (kept (front ++ cs ++ back)) := rfl
    _ = trimmed (kept front ++ kept cs ++ kept back) := by rw [kept, List.filter_append, List.filter_append]; rfl
    _ = trimmed (kept cs) := trimmed_append (hkept hfront) (hkept hback)

/-! ## Words with punctuation -/

theorem eq_point_of_inNumber (h : inNumber c = true) (hmark : isPunctuation c = true) : c = '.' := by
  simp only [isPunctuation, Bool.or_eq_true, decide_eq_true_iff] at hmark
  rcases hmark with (rfl | rfl) | rfl
  · exact absurd h (by decide)
  · exact absurd h (by decide)
  · rfl

theorem isPunctuation_of_isDigit (h : c.isDigit = true) : isPunctuation c = false := by
  by_contra hmark
  rw [Bool.not_eq_false] at hmark
  have hpoint : c = '.' := eq_point_of_inNumber (by simp [inNumber, h]) hmark
  exact Token.ne_point_of_isDigit h hpoint

theorem isPunctuation_of_continuesWord (h : continuesWord c = true) : isPunctuation c = false := by
  by_contra hmark
  rw [Bool.not_eq_false] at hmark
  simp only [isPunctuation, Bool.or_eq_true, decide_eq_true_iff] at hmark
  rcases hmark with (rfl | rfl) | rfl <;> exact absurd h (by decide)

/-- Words that are read have no punctuation, commas and points of numbers apart. -/
theorem isNumeral_or_of_mem_spelledBy {t : Token}
    (hv : ∀ u, v.contains u = true → ∀ c ∈ u.toList, isPunctuation c = false) (ht : t ∈ spelledBy v w) (hcomma : t.kind ≠ .comma) :
    isNumeral w = true ∨ ∀ c ∈ w, isPunctuation c = false := by
  have hmarks : ∀ m ∈ Token.spellings, m.2.1 ≠ .comma → m.1.toList.all (!isPunctuation ·) = true := by decide
  rcases List.mem_append.mp ht with ht | ht
  · rcases List.mem_append.mp ht with ht | ht
    · split at ht
      · next hnumeral => exact .inl hnumeral
      · cases ht
    · right
      split at ht
      · next hword =>
        simp only [Bool.or_eq_true, Bool.and_eq_true, List.all_eq_true] at hword
        rcases hword with hknown | ⟨-, hletter⟩
        · simpa using hv _ hknown
        · exact fun c hc ↦ isPunctuation_of_continuesWord (hletter c hc).1
      · cases ht
  · right
    obtain ⟨m, hm, rfl⟩ := List.mem_map.mp ht
    obtain ⟨hmem, htext⟩ := List.mem_filter.mp hm
    have hplain := hmarks m hmem hcomma
    rw [of_decide_eq_true htext, String.toList_ofList] at hplain
    simpa using hplain

/-- A numeral that begins with punctuation begins with a point and a digit. -/
theorem startsWithDigit_of_isNumeral (h : isNumeral (c :: w) = true) (hmark : isPunctuation c = true) :
    c = '.' ∧ Token.startsWithDigit w = true := by
  simp only [isNumeral, List.all_cons, Token.startsWithDigit, List.head?_cons, List.tail_cons, Bool.and_eq_true,
    Bool.or_eq_true, decide_eq_true_iff] at h
  obtain ⟨⟨⟨hc, -⟩, -⟩, hdigit | ⟨-, hdigit⟩⟩ := h
  · rw [isPunctuation_of_isDigit hdigit] at hmark
    cases hmark
  · exact ⟨eq_point_of_inNumber hc hmark, hdigit⟩

/-- A numeral that ends with punctuation ends with a point, and has no punctuation before it. -/
theorem exists_last_of_isNumeral (h : isNumeral (w ++ [c]) = true) (hmark : isPunctuation c = true) :
    c = '.' ∧ ∃ w' d, w = w' ++ [d] ∧ isPunctuation d = false := by
  simp only [isNumeral, List.all_append, List.all_cons, List.all_nil, Bool.and_true, Bool.and_eq_true,
    decide_eq_true_iff] at h
  obtain ⟨⟨⟨hall, hc⟩, hcount⟩, hstarts⟩ := h
  obtain rfl := eq_point_of_inNumber hc hmark
  refine ⟨rfl, ?_⟩
  rcases List.eq_nil_or_concat' w with rfl | ⟨w', d, rfl⟩
  · exact absurd hstarts (by decide)
  · refine ⟨w', d, rfl, ?_⟩
    by_contra hd
    obtain rfl := eq_point_of_inNumber (List.all_eq_true.mp hall d (by simp)) (by simpa using hd)
    simp at hcount

section Words

variable {ws : List (List Char)} (hws : ∀ w ∈ ws, w ≠ [] ∧ (isNumeral w = true ∨ ∀ c ∈ w, isPunctuation c = false))

include hws

/-- Punctuation before words that are read is a point at most. -/
theorem front_mem (hfront : ∀ c ∈ front, isPunctuation c = true) (heq : front ++ cs = ws.flatten) :
    front ∈ [[], ['.']] := by
  cases front with
  | nil => exact .head _
  | cons c front =>
      obtain ⟨hc, hmore⟩ := List.forall_mem_cons.mp hfront
      cases ws with
      | nil => cases heq
      | cons w ws =>
          obtain ⟨hne, hword⟩ := hws w (.head _)
          obtain ⟨d, w, rfl⟩ := List.exists_cons_of_ne_nil hne
          obtain ⟨rfl, hrest⟩ := List.cons.inj heq
          rcases hword with hnumeral | hplain
          · obtain ⟨rfl, hdigit⟩ := startsWithDigit_of_isNumeral hnumeral hc
            obtain ⟨d, w, rfl, hd⟩ := Token.startsWithDigit_iff.mp hdigit
            cases front with
            | nil => exact .tail _ (.head _)
            | cons e front =>
                obtain ⟨rfl, -⟩ := List.cons.inj hrest
                have he := hmore e (.head _)
                rw [isPunctuation_of_isDigit hd] at he
                cases he
          · rw [hplain c (.head _)] at hc
            cases hc

/-- Punctuation after words that are read is a point at most. -/
theorem back_mem (hback : ∀ c ∈ back, isPunctuation c = true) (heq : cs ++ back = ws.flatten) :
    back ∈ [[], ['.']] := by
  rcases List.eq_nil_or_concat' back with rfl | ⟨back, c, rfl⟩
  · exact .head _
  · have hc := hback c (by simp)
    rcases List.eq_nil_or_concat' ws with rfl | ⟨ws, w, rfl⟩
    · simp at heq
    · obtain ⟨hne, hword⟩ := hws w (by simp)
      rcases List.eq_nil_or_concat' w with rfl | ⟨w, d, rfl⟩
      · exact absurd rfl hne
      rw [List.flatten_append, List.flatten_singleton, ← List.append_assoc, ← List.append_assoc] at heq
      obtain ⟨hinit, hlast⟩ := List.append_inj' heq rfl
      obtain rfl := List.singleton_inj.mp hlast
      rcases hword with hnumeral | hplain
      · obtain ⟨rfl, w', d, rfl, hd⟩ := exists_last_of_isNumeral hnumeral hc
        rcases List.eq_nil_or_concat' back with rfl | ⟨back, e, rfl⟩
        · exact .tail _ (.head _)
        · rw [← List.append_assoc, ← List.append_assoc] at hinit
          obtain rfl := List.singleton_inj.mp (List.append_inj' hinit rfl).2
          rw [hback e (by simp)] at hd
          cases hd
      · rw [hplain c (by simp)] at hc
        cases hc

end Words

/-! ## Rules and their words -/

section Rules

variable {rule : Rule Float} {q : Equation Float} {text core target : String} {ts us : List Token}

/-- The symbols that a rule solves for. -/
def vocabulary (rule : Rule Float) : Vocabulary := .ofList (rule.solutions.map Prod.fst)

/-- The words of a rule's own text that could come apart. -/
def words (rule : Rule Float) : List String :=
  (((tokenize rule.vocabulary rule.text).toOption.getD []).map (·.text)).filter (1 < ·.length)

/-- All words of the rule are there, and no power that is written with stars. -/
def Intact (rule : Rule Float) (ts : List Token) : Prop :=
  (∀ w ∈ rule.words, ∃ t ∈ ts, t.text = w) ∧ ∀ t ∈ ts, t.text ≠ "**"

instance : Decidable (Intact rule ts) := inferInstanceAs (Decidable (_ ∧ _))

theorem intact_map_bare : Intact rule (ts.map bare) ↔ Intact rule ts := by
  have htext : ∀ t : Token, t.bare.text = t.text := fun _ ↦ rfl
  simp [Intact, htext]

/-- If the tokens are an equation, the first rule that covers it has the rule's solutions if they are intact; and
there is none otherwise. -/
def FoundIfIntact (rule : Rule Float) (ts : List Token) : Prop :=
  ∀ q ∈ (Expr.Cursor.equation? ts : Option (Equation Float)),
    (trees.find? (·.covers q)).map solutions = if Intact rule ts then some rule.solutions else none

instance : Decidable (FoundIfIntact rule ts) := by
  unfold FoundIfIntact
  infer_instance

/-- Rules have few shapes, and a shape has few readings: in none of them are there signs or brackets, and wherever
stars stood in it, a rule is found if it is intact. -/
theorem foundIfIntact_of_mem_readings : ∀ rule ∈ (trees : List (Rule Float)),
    ∀ front ∈ [[], ['.']], ∀ back ∈ [[], ['.']],
    ∀ shape ∈ [shapeChars rule.text.toList, flippedShape rule.text.toList],
    ∀ us ∈ readings rule.vocabulary (front ++ shape ++ back),
      (∀ t ∈ us, ¬Opens t) ∧ ∀ ts ∈ joins us, FoundIfIntact rule ts := by
  intro rule hrule
  simp only [trees, List.mem_cons, List.not_mem_nil, or_false] at hrule
  -- rule by rule, so that the evaluation of one is forgotten before the next
  rcases hrule with rfl | rfl | rfl | rfl | rfl | rfl | rfl
  all_goals decide +kernel

theorem isPunctuation_of_contains (hrule : rule ∈ (builtin : List (Rule Float))) (w : String)
    (h : rule.vocabulary.contains w = true) : ∀ c ∈ w.toList, isPunctuation c = false := by
  have hwords : ∀ rule ∈ (trees : List (Rule Float)), ∀ w ∈ "log10" :: rule.vocabulary.words,
      w.toList.all (!isPunctuation ·) = true := by
    decide +kernel
  rw [builtin_eq_trees] at hrule
  simpa using hwords rule hrule w (List.mem_cons.mpr (Vocabulary.contains_iff.mp h).symm)

/-- Besides the shape there is a point before it and a point after it at most, if the text can be read without
commas. -/
theorem exists_ends (hrule : rule ∈ (builtin : List (Rule Float))) (hus : us ∈ readings rule.vocabulary cs)
    (hcomma : ∀ t ∈ us, t.kind ≠ .comma) :
    ∃ front ∈ [[], ['.']], ∃ back ∈ [[], ['.']], cs = front ++ trimmed cs ++ back := by
  obtain ⟨front, back, hcs, hfront, hback⟩ := exists_trimmed cs
  obtain ⟨ws, heq, hws⟩ := Token.exists_words_of_mem_readings hus
  have hplain : ∀ w ∈ ws, w ≠ [] ∧ (isNumeral w = true ∨ ∀ c ∈ w, isPunctuation c = false) := by
    intro w hw
    obtain ⟨hne, t, ht, hspelled⟩ := hws w hw
    exact ⟨hne, isNumeral_or_of_mem_spelledBy (isPunctuation_of_contains hrule) hspelled (hcomma t ht)⟩
  refine ⟨front, ?_, back, ?_, hcs⟩
  · exact front_mem hplain hfront (by rw [← List.append_assoc, ← hcs, heq])
  · exact back_mem hplain hback (by rw [← hcs, heq])

/-- What the tokens of a text of the rule's shape say is covered by a rule if they are intact, and by none
otherwise. -/
theorem find?_covers_eq (hrule : rule ∈ (builtin : List (Rule Float)))
    (hshape : trimmed (kept core.toList) ∈ [shapeChars rule.text.toList, flippedShape rule.text.toList])
    (htokens : tokenize rule.vocabulary core = .ok ts) (hq : Equation.ofTokens ts = .ok q) :
    (builtin.find? (·.covers q)).map solutions = if Intact rule ts then some rule.solutions else none := by
  obtain ⟨us, hcovers, hjoined, hvalid⟩ := Token.exists_parts htokens
  obtain ⟨body, last, rfl, hlast, hbody⟩ := Token.exists_body_of_tokenize htokens
  have hfits : ∀ t ∈ body ++ [last], t.Fits := Token.fits_of_tokenize htokens
  have hreading : unstarred (body ++ [last]) ∈ readings rule.vocabulary (kept core.toList) := by
    rw [hjoined.unstarred_eq]
    exact hcovers.unstarred_mem_readings hvalid
  have hcomma : ∀ t ∈ unstarred (body ++ [last]), t.kind ≠ .comma := by
    intro t ht
    obtain ⟨u, hu, rfl⟩ := List.mem_map.mp ht
    exact Expr.kind_ne_comma_of_ofTokens hlast hbody hq u (List.mem_filter.mp hu).1
  obtain ⟨front, hfront, back, hback, hcs⟩ := exists_ends hrule hreading hcomma
  rw [hcs] at hreading
  rw [builtin_eq_trees] at hrule ⊢
  obtain ⟨hclosed, hfound⟩ := foundIfIntact_of_mem_readings rule hrule front hfront back hback _ hshape _ hreading
  have hopens : ∀ t ∈ body, ¬Opens t := fun t ht ↦
    Expr.not_opens_of_unstarred hfits hclosed t (List.mem_append_left _ ht)
  have hmem := Expr.map_bare_mem_joins hlast hbody hq hfits hopens
  have hread := Expr.Cursor.equation?_eq_some_iff.mpr (Expr.ofTokens_map_bare hlast hbody hq)
  rw [hfound _ hmem q hread, if_congr intact_map_bare rfl rfl]

theorem lookup_eq_bind_map {rules : List (Rule Float)} :
    lookup rules q target = ((rules.find? (·.covers q)).map solutions).bind (·.lookup target) := by
  rw [Option.bind_map]
  rfl

/-- **A text of a rule's shape that is, but for stray characters at its ends, an equation in the rule's symbols is
answered like the equation if its words are intact; if they are not, no rule covers the equation.** -/
theorem lookup_eq_lookupText_of_intact {before after : List Char}
    (htext : text.toList = before ++ core.toList ++ after) (hbefore : ∀ c ∈ before, isStray c = true)
    (hafter : ∀ c ∈ after, isStray c = true) (hrule : builtin.find? (·.coversText text) = some rule)
    (hparse : Equation.parse rule.vocabulary core = .ok q) :
    ∃ ts, tokenize rule.vocabulary core = .ok ts ∧
      ∀ target, lookup builtin q target = if Intact rule ts then lookupText builtin text target else none := by
  obtain ⟨ts, htokens, hq⟩ := bind_eq_ok_iff.mp hparse
  refine ⟨ts, htokens, fun target ↦ ?_⟩
  have hshape : trimmed (kept core.toList) ∈ [shapeChars rule.text.toList, flippedShape rule.text.toList] := by
    have hcovers := List.find?_some hrule
    rw [coversText, htext, shapeChars_append hbefore hafter, Bool.or_eq_true, decide_eq_true_iff,
      decide_eq_true_iff] at hcovers
    simpa [eq_comm] using hcovers
  rw [lookup_eq_bind_map, find?_covers_eq (List.mem_of_find?_eq_some hrule) hshape htokens hq, lookupText, hrule]
  split <;> rfl

theorem parse_of_equation? (htokens : tokenize v text = .ok ts) (h : Expr.Cursor.equation? ts = some q) :
    Equation.parse v text = .ok q :=
  bind_eq_ok_iff.mpr ⟨ts, htokens, Expr.Cursor.equation?_eq_some_iff.mp h⟩

/-- A product with a stray semicolon is answered like the product. -/
theorem lookup_eq_lookupText_product :
    (builtin : List (Rule Float)).find? (·.coversText "F = m*a;") = some newton ∧
      Equation.parse newton.vocabulary "F = m*a" = .ok (newton : Rule Float).equation ∧
      ∀ target, lookup builtin (newton : Rule Float).equation target = lookupText builtin "F = m*a;" target := by
  have hrule : (builtin : List (Rule Float)).find? (·.coversText "F = m*a;") = some newton := by
    rw [builtin_eq_trees]
    exact List.find?_cons_of_pos (by decide +kernel)
  have htokens : tokenize newton.vocabulary "F = m*a" =
      .ok [⟨.identifier, 0, 1, "F"⟩, ⟨.equals, 2, 3, "="⟩, ⟨.identifier, 4, 5, "m"⟩, ⟨.star, 5, 6, "*"⟩,
        ⟨.identifier, 6, 7, "a"⟩, ⟨.stop, 7, 7, ""⟩] :=
    eq_ok_of_toOption (by decide +kernel)
  have hparse : Equation.parse newton.vocabulary "F = m*a" = .ok (newton : Rule Float).equation :=
    parse_of_equation? htokens (by decide +kernel)
  have htext : "F = m*a;".toList = [] ++ "F = m*a".toList ++ [';'] := by decide
  obtain ⟨ts, hts, hlookup⟩ := lookup_eq_lookupText_of_intact htext (List.forall_mem_nil _)
    (List.forall_mem_singleton.mpr (by decide)) hrule hparse
  obtain rfl := Except.ok.inj (htokens.symm.trans hts)
  have hintact : Intact (newton : Rule Float) [⟨.identifier, 0, 1, "F"⟩, ⟨.equals, 2, 3, "="⟩,
      ⟨.identifier, 4, 5, "m"⟩, ⟨.star, 5, 6, "*"⟩, ⟨.identifier, 6, 7, "a"⟩, ⟨.stop, 7, 7, ""⟩] := by decide +kernel
  exact ⟨hrule, hparse, fun target ↦ (hlookup target).trans (if_pos hintact)⟩

/-- A power is answered like the product that is left of it without stars, and no rule covers the power. -/
theorem lookup_ne_lookupText_power :
    Equation.parse newton.vocabulary "F = m**a" = .ok (⟨.sym "F", .bin .pow (.sym "m") (.sym "a")⟩ : Equation Float) ∧
      lookupText (builtin : List (Rule Float)) "F = m**a;" "m" = some (.sym "F" / .sym "a") ∧
      lookup (builtin : List (Rule Float)) ⟨.sym "F", .bin .pow (.sym "m") (.sym "a")⟩ "m" = none := by
  have htokens : tokenize newton.vocabulary "F = m**a" =
      .ok [⟨.identifier, 0, 1, "F"⟩, ⟨.equals, 2, 3, "="⟩, ⟨.identifier, 4, 5, "m"⟩, ⟨.caret, 5, 7, "**"⟩,
        ⟨.identifier, 7, 8, "a"⟩, ⟨.stop, 8, 8, ""⟩] :=
    eq_ok_of_toOption (by decide +kernel)
  rw [builtin_eq_trees]
  exact ⟨parse_of_equation? htokens (by decide +kernel), by decide +kernel, by decide +kernel⟩

end Rules

end FormulaNet.Rule

import FormulaNet.Proofs.Token.Scan
import Mathlib.Data.List.Forall2

/-!
# Tokens with and without brackets around exponents

A number that is an exponent may stand in brackets.  Two texts that differ only in such brackets are scanned into
tokens that differ only in them and in where they stand (`Rebracketed`), if each number ends where its closing
bracket would be.  Splitting words and inserting signs of multiplication keep that.
-/

namespace FormulaNet

variable {text : String} {t u : Token} {ts us xs ys : List Token}

namespace Token

/-- Tokens that differ at most in where they stand. -/
structure Alike (t u : Token) : Prop where
  kind : t.kind = u.kind
  text : t.text = u.text

theorem Alike.refl (t : Token) : Alike t t := ⟨rfl, rfl⟩

/-- The tokens of a number, alone or in brackets. -/
inductive IsLiteral (text : String) : List Token → Prop
  | bare {n : Token} : n.kind = .number → n.text = text → IsLiteral text [n]
  | bracketed {o n c : Token} : o.kind = .openBracket → n.kind = .number → n.text = text →
      c.kind = .closeBracket → IsLiteral text [o, n, c]

/-- Tokens up to an end mark that differ at most in where they stand and in brackets around numbers that are
exponents. -/
inductive Rebracketed : List Token → List Token → Prop
  | stop {t u : Token} : t.kind = .stop → u.kind = .stop → Rebracketed [t] [u]
  | cons {t u : Token} {ts us : List Token} : Alike t u → Rebracketed ts us → Rebracketed (t :: ts) (u :: us)
  | exponent {t u : Token} {text : String} {xs ys ts us : List Token} : t.kind = .caret → u.kind = .caret →
      IsLiteral text xs → IsLiteral text ys → Rebracketed ts us →
      Rebracketed (t :: (xs ++ ts)) (u :: (ys ++ us))

namespace Rebracketed

theorem append (h : List.Forall₂ Alike xs ys) (hts : Rebracketed ts us) :
    Rebracketed (xs ++ ts) (ys ++ us) := by
  induction h with
  | nil => exact hts
  | cons htu _ ih => exact .cons htu ih

theorem append_left (xs : List Token) (h : Rebracketed ts us) : Rebracketed (xs ++ ts) (xs ++ us) :=
  append (List.forall₂_same.mpr fun t _ ↦ .refl t) h

/-- The first tokens are of the same kind. -/
theorem exists_heads (h : Rebracketed ts us) :
    ∃ t ts' u us', ts = t :: ts' ∧ us = u :: us' ∧ t.kind = u.kind := by
  cases h with
  | stop ht hu => exact ⟨_, _, _, _, rfl, rfl, ht.trans hu.symm⟩
  | cons htu _ => exact ⟨_, _, _, _, rfl, rfl, htu.kind⟩
  | exponent ht hu => exact ⟨_, _, _, _, rfl, rfl, ht.trans hu.symm⟩

theorem forall_head {P : Kind → Prop} (h : Rebracketed ts us) (hts : ∀ t ∈ ts.head?, P t.kind) :
    ∀ u ∈ us.head?, P u.kind := by
  obtain ⟨t, ts, u, us, rfl, rfl, hkind⟩ := h.exists_heads
  rintro u ⟨rfl⟩
  exact hkind ▸ hts t rfl

theorem exists_cons (h : Rebracketed (t :: ts) us) (hstop : t.kind ≠ .stop) (hcaret : t.kind ≠ .caret) :
    ∃ u us', us = u :: us' ∧ Alike t u ∧ Rebracketed ts us' := by
  cases h with
  | stop ht => exact absurd ht hstop
  | cons htu h => exact ⟨_, _, rfl, htu, h⟩
  | exponent ht => exact absurd ht hcaret

end Rebracketed

/-! ## Splitting words -/

variable {v : Vocabulary}

theorem forall₂_alike_pieces (p q : Nat) (cs : List Char) :
    List.Forall₂ Alike (pieces v p cs) (pieces v q cs) := by
  induction p, cs using pieces.induct v generalizing q with
  | case1 p => simp [pieces]
  | case2 p c cs kind more hpiece piece next ih =>
      rw [pieces, pieces, hpiece]
      exact .cons ⟨rfl, rfl⟩ (ih _)

theorem forall₂_alike_splitWord (h : Alike t u) : List.Forall₂ Alike (splitWord v t) (splitWord v u) := by
  have signs : ∀ {ps qs : List Token}, List.Forall₂ Alike ps qs →
      List.Forall₂ Alike (ps.flatMap fun p ↦ [times p.start, p]) (qs.flatMap fun p ↦ [times p.start, p]) := by
    intro ps qs h
    induction h with
    | nil => exact .nil
    | cons hpq _ ih => exact .cons ⟨rfl, rfl⟩ (.cons hpq ih)
  have hpieces : List.Forall₂ Alike (pieces v t.start t.text.toList) (pieces v u.start u.text.toList) := by
    rw [h.text]
    exact forall₂_alike_pieces _ _ _
  rw [splitWord, splitWord]
  generalize pieces v t.start t.text.toList = ps at hpieces ⊢
  generalize pieces v u.start u.text.toList = qs at hpieces ⊢
  cases hpieces with
  | nil => exact .nil
  | cons hfirst hothers => exact .cons hfirst (signs hothers)

theorem IsLiteral.kind_ne_identifier (h : IsLiteral text xs) : ∀ t ∈ xs, t.kind ≠ .identifier := by
  cases h with
  | bare hn => simp [hn]
  | bracketed ho hn _ hc => simp [ho, hn, hc]

theorem splitWords_cons_of_ne (h : t.kind ≠ .identifier) : splitWords v (t :: ts) = t :: splitWords v ts := by
  simp [splitWords, h]

theorem IsLiteral.splitWords_append (h : IsLiteral text xs) :
    splitWords v (xs ++ ts) = xs ++ splitWords v ts := by
  have hxs : splitWords v xs = xs :=
    splitWords_eq_self fun t ht hkind ↦ absurd hkind (h.kind_ne_identifier t ht)
  rw [splitWords, List.flatMap_append, ← splitWords, hxs, ← splitWords]

theorem Rebracketed.splitWords (h : Rebracketed ts us) :
    Rebracketed (splitWords v ts) (splitWords v us) := by
  induction h with
  | stop ht hu =>
      rw [splitWords_cons_of_ne (by simp [ht]), splitWords_cons_of_ne (by simp [hu])]
      exact .stop ht hu
  | @cons t u _ _ htu _ ih =>
      rw [Token.splitWords, Token.splitWords, List.flatMap_cons, List.flatMap_cons, htu.kind, htu.text]
      split
      · exact append (forall₂_alike_splitWord htu) ih
      · exact .cons htu ih
  | exponent ht hu hx hy _ ih =>
      rw [splitWords_cons_of_ne (by simp [ht]), splitWords_cons_of_ne (by simp [hu]), hx.splitWords_append,
        hy.splitWords_append]
      exact .exponent ht hu hx hy ih

/-! ## Inserting signs of multiplication -/

/-- A sign of multiplication is put after two tokens alike where the next tokens are of the same kind. -/
theorem forall₂_alike_implied (hends : t.endsOperand = u.endsOperand)
    (hcall : ∀ w, isCall t w = isCall u w) (h : Rebracketed ts us) :
    List.Forall₂ Alike (implied t ts) (implied u us) := by
  obtain ⟨w, ts', w', us', rfl, rfl, hw⟩ := h.exists_heads
  have hproduct : impliesProduct t w = impliesProduct u w' := by
    rw [impliesProduct, impliesProduct, hends, hcall, isCall, isCall, startsOperand, startsOperand, hw]
  rw [implied, implied, hproduct]
  split
  · exact .cons ⟨rfl, rfl⟩ .nil
  · exact .nil

theorem IsLiteral.insertProducts_append (h : IsLiteral text xs) : ∃ t, t.endsOperand = true ∧
    (∀ w, isCall t w = false) ∧ ∀ ts, insertProducts (xs ++ ts) = xs ++ (implied t ts ++ insertProducts ts) := by
  cases h with
  | @bare n hn =>
      refine ⟨n, by simp [endsOperand, hn], by simp [isCall, hn], fun ts ↦ ?_⟩
      exact insertProducts_cons n ts
  | @bracketed o n c ho hn _ hc =>
      refine ⟨c, by simp [endsOperand, hc], by simp [isCall, hc], fun ts ↦ ?_⟩
      have hopen : implied o (n :: c :: ts) = [] := implied_of_not_endsOperand (by simp [endsOperand, ho])
      have hclose : implied n (c :: ts) = [] := implied_of_not_startsOperand (by simp [startsOperand, hc])
      simp only [List.cons_append, List.nil_append, insertProducts_cons, hopen, hclose]

theorem Rebracketed.insertProducts (h : Rebracketed ts us) :
    Rebracketed (insertProducts ts) (insertProducts us) := by
  induction h with
  | stop ht hu => exact .stop ht hu
  | @cons t u ts us htu h ih =>
      have hends : t.endsOperand = u.endsOperand := by rw [endsOperand, endsOperand, htu.kind]
      have hcall : ∀ w, isCall t w = isCall u w := fun w ↦ by rw [isCall, isCall, htu.kind, htu.text]
      rw [insertProducts_cons, insertProducts_cons]
      exact .cons htu (append (forall₂_alike_implied hends hcall h) ih)
  | @exponent t u text xs ys ts us ht hu hx hy h ih =>
      obtain ⟨w, hends, hcall, hxs⟩ := hx.insertProducts_append
      obtain ⟨w', hends', hcall', hys⟩ := hy.insertProducts_append
      -- a number and a closing bracket imply a product before the same tokens
      have hafter : List.Forall₂ Alike (implied w ts) (implied w' us) :=
        forall₂_alike_implied (hends.trans hends'.symm) (fun w ↦ (hcall w).trans (hcall' w).symm) h
      rw [insertProducts_cons, insertProducts_cons,
        implied_of_not_endsOperand (by simp [endsOperand, ht]),
        implied_of_not_endsOperand (by simp [endsOperand, hu]), hxs, hys, List.nil_append, List.nil_append]
      exact .exponent ht hu hx hy (append hafter ih)

/-! ## Scanning -/

open Text

variable {c : Char} {cs ds rest : List Char} {p : Nat}

/-- The text ends, or goes on with a caret: no token before it is longer. -/
def CaretNext (rest : List Char) : Prop := ∀ c ∈ rest.head?, c = '^'

theorem head?_append_eq_iff (h : CaretNext rest) (hc : c ≠ '^') :
    (cs ++ rest).head? = some c ↔ cs.head? = some c := by
  cases cs with
  | nil => exact iff_of_false (fun heq ↦ hc (h c heq)) nofun
  | cons d cs => rfl

theorem startsWithDigit_append (h : CaretNext rest) : startsWithDigit (cs ++ rest) = startsWithDigit cs := by
  cases cs with
  | nil =>
      cases rest with
      | nil => rfl
      | cons c rest =>
          obtain rfl := h c rfl
          rfl
  | cons c cs => rfl

theorem takeNumber_of_caretNext {pointSeen : Bool} (h : CaretNext rest) :
    takeNumber pointSeen rest = ([], rest) := by
  cases rest with
  | nil => rfl
  | cons c rest =>
      obtain rfl := h c rfl
      rw [takeNumber.eq_def]
      rfl

theorem takeNumber_append_of_caretNext {pointSeen : Bool} (h : CaretNext rest) :
    takeNumber pointSeen (cs ++ rest) = (takeNumber pointSeen cs).map id (· ++ rest) := by
  fun_induction takeNumber pointSeen cs with
  | case1 pointSeen => exact takeNumber_of_caretNext h
  | case2 pointSeen c cs hdigit ih =>
      rw [List.cons_append, takeNumber_cons_of_isDigit hdigit, ih]
      rfl
  | case3 pointSeen c cs hdigit hpoint ih =>
      obtain ⟨rfl, rfl⟩ := hpoint
      rw [List.cons_append, takeNumber_point, ih]
      rfl
  | case4 pointSeen c hdigit hpoint he =>
      rw [takeNumber.eq_def, List.singleton_append]
      dsimp only
      rw [if_neg hdigit, if_neg hpoint, if_pos he]
      cases rest with
      | nil => rfl
      | cons d rest =>
          obtain rfl := h d rfl
          rfl
  | case5 pointSeen c hdigit hpoint he d ds hd ih =>
      rw [takeNumber.eq_def, List.cons_append, List.cons_append]
      dsimp only
      rw [if_neg hdigit, if_neg hpoint, if_pos he, if_pos hd, ← List.cons_append, ih]
      rfl
  | case6 pointSeen c hdigit hpoint he d ds hd hsign ih =>
      rw [takeNumber.eq_def, List.cons_append, List.cons_append]
      dsimp only
      rw [if_neg hdigit, if_neg hpoint, if_pos he, if_neg hd, startsWithDigit_append h, if_pos hsign, ih]
      rfl
  | case7 pointSeen c hdigit hpoint he d ds hd hsign =>
      rw [takeNumber.eq_def, List.cons_append, List.cons_append]
      dsimp only
      rw [if_neg hdigit, if_neg hpoint, if_pos he, if_neg hd, startsWithDigit_append h, if_neg hsign]
      rfl
  | case8 pointSeen c cs hdigit hpoint he =>
      rw [takeNumber.eq_def, List.cons_append]
      dsimp only
      rw [if_neg hdigit, if_neg hpoint, if_neg he]
      rfl

theorem startsNumber_append (h : CaretNext rest) : startsNumber c (cs ++ rest) = startsNumber c cs := by
  rw [startsNumber, startsWithDigit_append h, startsNumber]

theorem mark?_append (h : CaretNext rest) : mark? c (cs ++ rest) = mark? c cs := by
  have hstar : (cs ++ rest).head? = some '*' ↔ cs.head? = some '*' := head?_append_eq_iff h (by decide)
  have hequals : (cs ++ rest).head? = some '=' ↔ cs.head? = some '=' := head?_append_eq_iff h (by decide)
  unfold mark?
  simp only [hstar, hequals]

/-- A mark takes no more characters than there are. -/
theorem length_of_mark? {kind : Kind} {more : Nat} (h : mark? c cs = some (kind, text, more)) :
    more ≤ cs.length := by
  have hnext : ∀ d, cs.head? = some d → 1 ≤ cs.length := by
    cases cs with
    | nil => nofun
    | cons d cs => simp
  unfold mark? at h
  split at h <;> first | split at h | skip
  all_goals grind

theorem takeWhile_append_of_caretNext (h : CaretNext rest) :
    (cs ++ rest).takeWhile continuesWord = cs.takeWhile continuesWord ∧
      (cs ++ rest).dropWhile continuesWord = cs.dropWhile continuesWord ++ rest := by
  induction cs with
  | nil =>
      cases rest with
      | nil => exact ⟨rfl, rfl⟩
      | cons c rest =>
          obtain rfl := h c rfl
          exact ⟨rfl, rfl⟩
  | cons c cs ih =>
      by_cases hc : continuesWord c = true
      · simp [hc, ih]
      · simp [hc]

/-- Scanning goes along a text in the same way whatever comes from a caret on. -/
theorem scan_cons_append (h : CaretNext rest) : scan p (c :: (cs ++ rest)) =
    if isBlank c then scan (p + c.utf8Size) (cs ++ rest)
    else if startsNumber c cs then
      let word := c :: (takeNumber (c = '.') cs).1
      (scan (p + utf8Length word) ((takeNumber (c = '.') cs).2 ++ rest)).map
        (⟨.number, p, p + utf8Length word, String.ofList word⟩ :: ·)
    else if startsWord c then
      let word := c :: cs.takeWhile continuesWord
      (scan (p + utf8Length word) (cs.dropWhile continuesWord ++ rest)).map
        (⟨.identifier, p, p + utf8Length word, String.ofList word⟩ :: ·)
    else
      match mark? c cs with
      | some (kind, text, more) =>
        (scan (p + 1 + more) (cs.drop more ++ rest)).map (⟨kind, p, p + text.utf8ByteSize, text⟩ :: ·)
      | none => .error (.syntaxError p (.character c)) := by
  rw [scan, startsNumber_append h, takeNumber_append_of_caretNext h, (takeWhile_append_of_caretNext h).1,
    (takeWhile_append_of_caretNext h).2, mark?_append h]
  split
  · rfl
  split
  · rfl
  split
  · rfl
  cases hmark : mark? c cs with
  | none => rfl
  | some m => simp only [List.drop_append_of_le_length (length_of_mark? hmark)]

/-- Where the one text is scanned, wherever it begins, so is the other, and the tokens differ only in where they
stand and in brackets around exponents. -/
def ScannedAlike (as bs : List Char) : Prop :=
  ∀ ⦃p q : Nat⦄ ⦃ts : List Token⦄, scan p as = .ok ts → ∃ us, scan q bs = .ok us ∧ Rebracketed ts us

theorem exists_rebracketed_cons {x y : Except Error (List Token)}
    (h : ∀ ts, x = .ok ts → ∃ us, y = .ok us ∧ Rebracketed ts us)
    (hts : x.map (t :: ·) = .ok ts) (htu : Alike t u) : ∃ us, y.map (u :: ·) = .ok us ∧ Rebracketed ts us := by
  obtain ⟨ts, hx, rfl⟩ := map_eq_ok_iff.mp hts
  obtain ⟨us, hy, hus⟩ := h ts hx
  exact ⟨u :: us, map_eq_ok_iff.mpr ⟨us, hy, rfl⟩, .cons htu hus⟩

theorem ScannedAlike.append_left {as bs : List Char} (h : ScannedAlike as bs) (has : CaretNext as)
    (hbs : CaretNext bs) (cs : List Char) : ScannedAlike (cs ++ as) (cs ++ bs) := by
  intro p q ts hts
  -- the induction scans the common front alone: its tokens end where they do before a caret
  fun_induction scan p cs generalizing q ts with
  | case1 p => exact h hts
  | case2 p c cs hblank ih =>
      rw [List.cons_append, scan_cons_append has, if_pos hblank] at hts
      rw [List.cons_append, scan_cons_append hbs, if_pos hblank]
      exact ih hts
  | case3 p c cs hblank hnumber word =>
      rename_i ih
      rw [List.cons_append, scan_cons_append has, if_neg hblank, if_pos hnumber] at hts
      rw [List.cons_append, scan_cons_append hbs, if_neg hblank, if_pos hnumber]
      exact exists_rebracketed_cons (fun _ hx ↦ ih hx) hts ⟨rfl, rfl⟩
  | case4 p c cs hblank hnumber hword word =>
      rename_i ih
      rw [List.cons_append, scan_cons_append has, if_neg hblank, if_neg hnumber, if_pos hword] at hts
      rw [List.cons_append, scan_cons_append hbs, if_neg hblank, if_neg hnumber, if_pos hword]
      exact exists_rebracketed_cons (fun _ hx ↦ ih hx) hts ⟨rfl, rfl⟩
  | case5 p c cs hblank hnumber hword kind text more hmark ih =>
      rw [List.cons_append, scan_cons_append has, if_neg hblank, if_neg hnumber, if_neg hword, hmark] at hts
      rw [List.cons_append, scan_cons_append hbs, if_neg hblank, if_neg hnumber, if_neg hword, hmark]
      exact exists_rebracketed_cons (fun _ hx ↦ ih hx) hts ⟨rfl, rfl⟩
  | case6 p c cs hblank hnumber hword hmark =>
      rw [List.cons_append, scan_cons_append has, if_neg hblank, if_neg hnumber, if_neg hword, hmark] at hts
      cases hts

/-- Where a text begins plays no part. -/
theorem scannedAlike_self (cs : List Char) : ScannedAlike cs cs := by
  have hnil : ScannedAlike [] [] := by
    intro p q ts hts
    rw [scan] at hts ⊢
    cases hts
    exact ⟨_, rfl, .stop rfl rfl⟩
  have hend : CaretNext [] := by
    intro c hc
    cases hc
  have happend := hnil.append_left hend hend cs
  rwa [List.append_nil] at happend

/-- A text that begins with a caret and a number, alone or in brackets. -/
def BeginsWithExponent (text : String) (cs rest : List Char) : Prop :=
  ∀ p, ∃ t xs q, t.kind = .caret ∧ IsLiteral text xs ∧ Scans p cs (t :: xs) q rest

theorem scans_caret (position : Nat) (cs : List Char) :
    ∃ t : Token, t.kind = .caret ∧ Scans position ('^' :: cs) [t] (position + 1) cs :=
  scans_mark (by decide) (absurd · (by decide))

theorem beginsWithExponent_digits (hds : Numeral.isDigits ds = true)
    (hrest : takeNumber false rest = ([], rest)) :
    BeginsWithExponent (String.ofList ds) ('^' :: (ds ++ rest)) rest := by
  intro p
  obtain ⟨t, ht, hcaret⟩ := scans_caret p (ds ++ rest)
  obtain ⟨n, q, hn, htext, hnumber⟩ := scans_digits (p + 1) hds hrest
  exact ⟨t, [n], q, ht, .bare hn htext, hcaret.trans hnumber⟩

theorem beginsWithExponent_brackets (hds : Numeral.isDigits ds = true) :
    BeginsWithExponent (String.ofList ds) ('^' :: '(' :: (ds ++ ')' :: rest)) rest := by
  intro p
  obtain ⟨t, ht, hcaret⟩ := scans_caret p ('(' :: (ds ++ ')' :: rest))
  obtain ⟨o, ho, hopen⟩ := scans_openBracket (p + 1) (ds ++ ')' :: rest)
  have hends : Ends (')' :: rest) := by
    rintro c ⟨rfl⟩
    exact .inr (.inr rfl)
  obtain ⟨n, q, hn, htext, hnumber⟩ := scans_digits (p + 1 + 1) hds (takeNumber_of_ends hends)
  obtain ⟨c, hc, hclose⟩ := scans_closeBracket q rest
  exact ⟨t, [o, n, c], q + 1, ht, .bracketed ho hn htext hc, ((hcaret.trans hopen).trans hnumber).trans hclose⟩

theorem BeginsWithExponent.scannedAlike {as bs : List Char} (has : BeginsWithExponent text as rest)
    (hbs : BeginsWithExponent text bs rest) : ScannedAlike as bs := by
  intro p q ts hts
  obtain ⟨t, xs, p', ht, hxs, hscan⟩ := has p
  obtain ⟨u, ys, q', hu, hys, hscan'⟩ := hbs q
  rw [Scans] at hscan hscan'
  rw [hscan] at hts
  obtain ⟨ts, hrest, rfl⟩ := map_eq_ok_iff.mp hts
  obtain ⟨us, hrest', hus⟩ := scannedAlike_self rest hrest
  rw [hscan', hrest']
  exact ⟨u :: (ys ++ us), rfl, .exponent ht hu hxs hys hus⟩

end Token

end FormulaNet

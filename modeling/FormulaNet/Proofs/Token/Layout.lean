import FormulaNet.Proofs.Token.Number
import Mathlib.Data.List.Chain

/-!
# Where tokens stand

The tokens that a formula spells out stand in its text one after another, with nothing but blanks and the second signs
of doubled signs of equality between them, up to an end mark at the length of the text (`Laid`).  The other tokens are
signs of multiplication that it leaves out: there is one between two neighbours that are its factors, and nowhere
else (`Joined`).
-/

namespace FormulaNet

/-! ## Parts of texts -/

namespace Text

variable {cs a b w : List Char} {n start stop : Nat}

/-- Splits a text after a number of bytes, if a character ends there. -/
def splitBytes? : List Char → Nat → Option (List Char × List Char)
  | cs, 0 => some ([], cs)
  | [], _ + 1 => none
  | c :: cs, n + 1 =>
    if c.utf8Size ≤ n + 1 then (splitBytes? cs (n + 1 - c.utf8Size)).map fun p ↦ (c :: p.1, p.2) else none

/-- The text between two positions, if characters begin or end there. -/
def slice? (cs : List Char) (start stop : Nat) : Option (List Char) :=
  if start ≤ stop then (splitBytes? cs start).bind fun p ↦ (splitBytes? p.2 (stop - start)).map Prod.fst else none

theorem splitBytes?_eq_some_iff : splitBytes? cs n = some (a, b) ↔ cs = a ++ b ∧ utf8Length a = n := by
  induction cs, n using splitBytes?.induct generalizing a with
  | case1 cs =>
      rw [splitBytes?, Option.some.injEq, Prod.mk.injEq]
      constructor
      · rintro ⟨rfl, rfl⟩
        exact ⟨rfl, rfl⟩
      · rintro ⟨rfl, h⟩
        cases a with
        | nil => exact ⟨rfl, rfl⟩
        | cons c a => exact absurd h (Nat.ne_of_gt (Nat.add_pos_left c.utf8Size_pos _))
  | case2 n =>
      refine iff_of_false (by simp [splitBytes?]) ?_
      rintro ⟨h, hlength⟩
      obtain ⟨rfl, rfl⟩ := List.append_eq_nil_iff.mp h.symm
      cases hlength
  | case3 c cs n hfits ih =>
      rw [splitBytes?, if_pos hfits, Option.map_eq_some_iff]
      constructor
      · rintro ⟨⟨d, e⟩, hsplit, heq⟩
        obtain ⟨rfl, rfl⟩ := Prod.mk.inj heq
        obtain ⟨rfl, hlength⟩ := ih.mp hsplit
        exact ⟨rfl, by rw [utf8Length_cons, hlength]; omega⟩
      · rintro ⟨heq, hlength⟩
        cases a with
        | nil => cases hlength
        | cons d a =>
            obtain ⟨rfl, rfl⟩ := List.cons.inj heq
            rw [utf8Length_cons] at hlength
            exact ⟨(a, b), ih.mpr ⟨rfl, by omega⟩, rfl⟩
  | case4 c cs n hfits =>
      rw [splitBytes?, if_neg hfits]
      refine iff_of_false nofun ?_
      rintro ⟨heq, hlength⟩
      cases a with
      | nil => cases hlength
      | cons d a =>
          obtain ⟨rfl, -⟩ := List.cons.inj heq
          rw [utf8Length_cons] at hlength
          omega

/-- The slices of a text are its parts, by where they begin and end. -/
theorem slice?_eq_some_iff : slice? cs start stop = some w ↔
    ∃ a b, cs = a ++ (w ++ b) ∧ utf8Length a = start ∧ start + utf8Length w = stop := by
  unfold slice?
  constructor
  · intro h
    split at h
    · next hle =>
      obtain ⟨⟨a, rest⟩, hfront, h⟩ := Option.bind_eq_some_iff.mp h
      obtain ⟨⟨_, b⟩, hback, rfl⟩ := Option.map_eq_some_iff.mp h
      obtain ⟨rfl, ha⟩ := splitBytes?_eq_some_iff.mp hfront
      obtain ⟨rfl, hw⟩ := splitBytes?_eq_some_iff.mp hback
      exact ⟨a, b, rfl, ha, by rw [hw]; omega⟩
    · cases h
  · rintro ⟨a, b, rfl, rfl, rfl⟩
    rw [if_pos (Nat.le_add_right _ _), splitBytes?_eq_some_iff.mpr ⟨rfl, rfl⟩, Option.bind_some,
      Nat.add_sub_cancel_left, splitBytes?_eq_some_iff.mpr ⟨rfl, rfl⟩]
    rfl

end Text

namespace Token

open Text

variable {v : Vocabulary} {p q n : Nat} {c : Char} {cs ds w : List Char} {t u : Token} {ts us : List Token}

/-! ## Passing over a text -/

/-- How a token is written: as its text says, but brackets may be square. -/
def Spells (w : List Char) (t : Token) : Prop :=
  w = t.text.toList ∨
    (t.kind, w, t.text) ∈ [(Kind.openBracket, ['['], "("), (Kind.closeBracket, [']'], ")")]

/-- The tokens of a text that begins at a position, as one passes over it.  Two signs of equality next to each other
are one token, with the text of the first. -/
inductive Covers : Nat → List Char → List Token → Prop
  | stop {p : Nat} : Covers p [] [⟨.stop, p, p, ""⟩]
  | blank {p : Nat} {c : Char} {cs : List Char} {ts : List Token} : isBlank c = true →
      Covers (p + c.utf8Size) cs ts → Covers p (c :: cs) ts
  | token {kind : Kind} {text : String} {p q : Nat} {w cs : List Char} {ts : List Token} : w ≠ [] →
      p + utf8Length w = q → Spells w ⟨kind, p, q, text⟩ → kind ≠ .stop →
      (kind = .equals → cs.head? ≠ some '=') → Covers q cs ts → Covers p (w ++ cs) (⟨kind, p, q, text⟩ :: ts)
  | doubled {p : Nat} {cs : List Char} {ts : List Token} : Covers (p + 2) cs ts →
      Covers p ('=' :: '=' :: cs) (⟨.equals, p, p + 1, "="⟩ :: ts)

/-- What a mark takes off the front of a text: its characters, or both signs of a doubled sign of equality. -/
theorem spells_of_mark? {kind : Kind} {text : String} {more : Nat} (h : mark? c cs = some (kind, text, more)) :
    (kind = .equals ∧ text = "=" ∧ more = 1 ∧ ∃ ds, c :: cs = '=' :: '=' :: ds) ∨
      (∀ start stop, Spells (c :: cs.take more) ⟨kind, start, stop, text⟩) ∧
        text.utf8ByteSize = 1 + more ∧ utf8Length (c :: cs.take more) = 1 + more ∧
        (kind = .equals → (cs.drop more).head? ≠ some '=') := by
  have single : ∀ {d : Char} {kind : Kind}, d.utf8Size = 1 → kind ≠ .equals →
      (∀ start stop, Spells (d :: cs.take 0) ⟨kind, start, stop, String.singleton d⟩) ∧
        (String.singleton d).utf8ByteSize = 1 + 0 ∧ utf8Length (d :: cs.take 0) = 1 + 0 ∧
        (kind = .equals → (cs.drop 0).head? ≠ some '=') := by
    intro d kind hsize hkind
    refine ⟨fun _ _ ↦ .inl (by simp), ?_, by simp [hsize], fun h ↦ absurd h hkind⟩
    simp [hsize]
  unfold mark? at h
  split at h
  -- a star and a sign of equality are told by the next character, and a square bracket is not what its text says
  case h_10 =>
    split at h
    · next hnext =>
      cases h
      obtain ⟨ds, rfl⟩ := List.head?_eq_some_iff.mp hnext
      exact .inr ⟨fun _ _ ↦ .inl (by simp), rfl, rfl, nofun⟩
    · cases h
      exact .inr (single rfl nofun)
  case h_11 =>
    cases h
    split
    · next hnext =>
      obtain ⟨ds, rfl⟩ := List.head?_eq_some_iff.mp hnext
      exact .inl ⟨rfl, rfl, rfl, ds, rfl⟩
    · next hnext => exact .inr ⟨fun _ _ ↦ .inl (by simp), rfl, rfl, fun _ ↦ hnext⟩
  case h_12 => cases h
  case h_2 =>
    cases h
    exact .inr ⟨fun _ _ ↦ .inr List.mem_cons_self, rfl, rfl, nofun⟩
  case h_4 =>
    cases h
    exact .inr ⟨fun _ _ ↦ .inr (List.mem_cons_of_mem _ List.mem_cons_self), rfl, rfl, nofun⟩
  all_goals
    cases h
    exact .inr (single rfl nofun)

theorem Covers.word {kind : Kind} (hkind : kind = .identifier ∨ kind = .number)
    (h : Covers (p + utf8Length (c :: ds)) cs ts) : Covers p (c :: (ds ++ cs))
      (⟨kind, p, p + utf8Length (c :: ds), String.ofList (c :: ds)⟩ :: ts) := by
  have hother : kind ≠ .stop ∧ kind ≠ .equals := by
    rcases hkind with rfl | rfl <;> exact ⟨nofun, nofun⟩
  rw [← List.cons_append]
  exact .token (List.cons_ne_nil c ds) rfl (.inl String.toList_ofList.symm) hother.1 (absurd · hother.2) h

theorem covers_of_scan (h : scan p cs = .ok ts) : Covers p cs ts := by
  fun_induction scan p cs generalizing ts with
  | case1 p =>
      cases h
      exact .stop
  | case2 p c cs hblank ih => exact .blank hblank (ih h)
  | case3 p c cs hblank hnumber word =>
      rename_i ih
      obtain ⟨rest, hrest, rfl⟩ := map_eq_ok_iff.mp h
      have hcovers := Covers.word (.inr rfl) (ih hrest)
      rwa [takeNumber_append] at hcovers
  | case4 p c cs hblank hnumber hword word =>
      rename_i ih
      obtain ⟨rest, hrest, rfl⟩ := map_eq_ok_iff.mp h
      have hcovers := Covers.word (.inl rfl) (ih hrest)
      rwa [List.takeWhile_append_dropWhile] at hcovers
  | case5 p c cs hblank hnumber hword kind text more hmark ih =>
      obtain ⟨rest, hrest, rfl⟩ := map_eq_ok_iff.mp h
      have hkinds : ∀ m ∈ markTexts, m.1 ≠ .stop := by decide
      have hstop : kind ≠ .stop := hkinds _ (mem_markTexts_of_mark? hmark)
      rcases spells_of_mark? hmark with ⟨rfl, rfl, rfl, ds, heq⟩ | ⟨hspells, hsize, hlength, hequals⟩
      · obtain ⟨rfl, rfl⟩ := List.cons.inj heq
        exact .doubled (ih hrest)
      · have hnext : p + 1 + more = p + text.utf8ByteSize := by omega
        have hcovers : Covers (p + text.utf8ByteSize) (cs.drop more) rest := hnext ▸ ih hrest
        rw [← List.take_append_drop more cs, ← List.cons_append]
        exact .token (List.cons_ne_nil c _) (by omega) (hspells _ _) hstop hequals hcovers
  | case6 => cases h

/-! ## Standing in a text -/

/-- What stands between a token and the next one: blanks, and before them, after a sign of equality, its double. -/
def Between (cs : List Char) (t u : Token) : Prop :=
  ∃ gap, slice? cs t.stop u.start = some gap ∧
    (gap.all isBlank = true ∨ t.kind = .equals ∧ ∃ blanks, gap = '=' :: blanks ∧ blanks.all isBlank = true)

/-- The tokens stand in the text one after another, each where its text is, with nothing but blanks and the doubles of
signs of equality around them, and the last one is an end mark at the length of the text. -/
structure Laid (cs : List Char) (ts : List Token) : Prop where
  spelled : ∀ t ∈ ts, ∃ w, slice? cs t.start t.stop = some w ∧ Spells w t
  ascending : ts.Pairwise fun t u ↦ t.stop ≤ u.start
  front : ∀ t ∈ ts.head?, ∃ gap, slice? cs 0 t.start = some gap ∧ gap.all isBlank = true
  between : ts.IsChain (Between cs)
  ends : ∃ body, ts = body ++ [⟨.stop, utf8Length cs, utf8Length cs, ""⟩] ∧
    ∀ t ∈ body, t.kind ≠ .stop ∧ t.start < t.stop

namespace Covers

theorem utf8Length_append_equals {a : List Char} (ha : utf8Length a = p) :
    utf8Length (a ++ ['='] ++ ['=']) = p + 2 := by
  simp only [utf8Length_append, ha]
  rfl

theorem spelled (h : Covers p cs ts) {a : List Char} (ha : utf8Length a = p) (ht : t ∈ ts) :
    ∃ w, slice? (a ++ cs) t.start t.stop = some w ∧ Spells w t := by
  induction h generalizing a with
  | stop =>
      obtain rfl := List.mem_singleton.mp ht
      exact ⟨[], slice?_eq_some_iff.mpr ⟨a, [], rfl, ha, rfl⟩, .inl rfl⟩
  | @blank _ c _ _ _ _ ih =>
      rw [List.append_cons]
      exact ih (by simp [ha]) ht
  | @token _ _ _ _ w _ _ _ hstop hspells _ _ _ ih =>
      rcases List.mem_cons.mp ht with rfl | ht
      · exact ⟨w, slice?_eq_some_iff.mpr ⟨a, _, rfl, ha, hstop⟩, hspells⟩
      · rw [← List.append_assoc]
        exact ih (by simp [ha, hstop]) ht
  | @doubled p cs _ _ ih =>
      rcases List.mem_cons.mp ht with rfl | ht
      · exact ⟨['='], slice?_eq_some_iff.mpr ⟨a, '=' :: cs, rfl, ha, rfl⟩, .inl (by simp)⟩
      · rw [List.append_cons, List.append_cons]
        exact ih (utf8Length_append_equals ha) ht

theorem le_start (h : Covers p cs ts) (ht : t ∈ ts) : p ≤ t.start := by
  induction h with
  | stop => exact (List.mem_singleton.mp ht) ▸ Nat.le_refl _
  | blank _ _ ih => exact Nat.le_trans (Nat.le_add_right _ _) (ih ht)
  | token _ hstop _ _ _ _ ih =>
      rcases List.mem_cons.mp ht with rfl | ht
      · exact Nat.le_refl _
      · exact Nat.le_trans (hstop ▸ Nat.le_add_right _ _) (ih ht)
  | doubled _ ih =>
      rcases List.mem_cons.mp ht with rfl | ht
      · exact Nat.le_refl _
      · exact Nat.le_trans (Nat.le_add_right _ _) (ih ht)

theorem ascending (h : Covers p cs ts) : ts.Pairwise fun t u ↦ t.stop ≤ u.start := by
  induction h with
  | stop => exact List.pairwise_singleton _ _
  | blank _ _ ih => exact ih
  | token _ _ _ _ _ h ih => exact .cons (fun _ hu ↦ h.le_start hu) ih
  | doubled h ih => exact .cons (fun _ hu ↦ Nat.le_trans (Nat.le_succ _) (h.le_start hu)) ih

/-- Blanks come before the first token. -/
theorem exists_front (h : Covers p cs ts) : ∃ t us gap rest, ts = t :: us ∧ cs = gap ++ rest ∧
    gap.all isBlank = true ∧ p + utf8Length gap = t.start := by
  induction h with
  | stop => exact ⟨_, _, [], [], rfl, rfl, rfl, rfl⟩
  | @blank _ c _ _ hblank _ ih =>
      obtain ⟨t, us, gap, rest, rfl, rfl, hgap, hstart⟩ := ih
      refine ⟨t, us, c :: gap, rest, rfl, rfl, by simpa [hblank] using hgap, ?_⟩
      rw [← hstart, utf8Length_cons, Nat.add_assoc]
  | token => exact ⟨_, _, [], _, rfl, rfl, rfl, rfl⟩
  | doubled => exact ⟨_, _, [], _, rfl, rfl, rfl, rfl⟩

theorem front (h : Covers p cs ts) {a : List Char} (ha : utf8Length a = p) (ht : t ∈ ts.head?) :
    ∃ gap, slice? (a ++ cs) p t.start = some gap ∧ gap.all isBlank = true := by
  obtain ⟨t, us, gap, rest, rfl, rfl, hgap, hstart⟩ := h.exists_front
  obtain ⟨rfl⟩ := ht
  exact ⟨gap, slice?_eq_some_iff.mpr ⟨a, rest, rfl, ha, hstart⟩, hgap⟩

theorem between (h : Covers p cs ts) {a : List Char} (ha : utf8Length a = p) :
    ts.IsChain (Between (a ++ cs)) := by
  induction h generalizing a with
  | stop => exact .singleton _
  | blank _ _ ih =>
      rw [List.append_cons]
      exact ih (by simp [ha])
  | @token _ _ _ q w cs _ _ hstop _ _ _ h ih =>
      have hbefore : utf8Length (a ++ w) = q := by rw [utf8Length_append, ha, hstop]
      rw [← List.append_assoc]
      refine (ih hbefore).cons fun u hu ↦ ?_
      obtain ⟨gap, hgap, hblank⟩ := h.front hbefore hu
      exact ⟨gap, hgap, .inl hblank⟩
  | @doubled p cs _ h ih =>
      rw [List.append_cons, List.append_cons]
      refine (ih (utf8Length_append_equals ha)).cons fun u hu ↦ ?_
      obtain ⟨t, us, gap, rest, rfl, rfl, hgap, hstart⟩ := h.exists_front
      obtain ⟨rfl⟩ := hu
      have hbefore : utf8Length (a ++ ['=']) = p + 1 := by
        rw [utf8Length_append, ha]
        rfl
      have hstop : p + 1 + utf8Length ('=' :: gap) = u.start := by
        rw [← hstart, utf8Length_cons]
        exact (Nat.add_assoc (p + 1) 1 _).symm
      exact ⟨'=' :: gap, slice?_eq_some_iff.mpr ⟨a ++ ['='], rest, by simp, hbefore, hstop⟩,
        .inr ⟨rfl, gap, rfl, hgap⟩⟩

theorem ends (h : Covers p cs ts) : ∃ body,
    ts = body ++ [⟨.stop, p + utf8Length cs, p + utf8Length cs, ""⟩] ∧
      ∀ t ∈ body, t.kind ≠ .stop ∧ t.start < t.stop := by
  induction h with
  | stop => exact ⟨[], rfl, nofun⟩
  | @blank p c _ _ _ _ ih =>
      obtain ⟨body, rfl, hbody⟩ := ih
      exact ⟨body, by rw [utf8Length_cons, Nat.add_assoc], hbody⟩
  | @token kind text p q w _ _ hne hstop _ hkind _ _ ih =>
      obtain ⟨body, rfl, hbody⟩ := ih
      refine ⟨⟨kind, p, q, text⟩ :: body, by rw [utf8Length_append, ← Nat.add_assoc, hstop]; rfl, ?_⟩
      have hlength : 0 < utf8Length w := by
        cases w with
        | nil => exact absurd rfl hne
        | cons c w => exact Nat.add_pos_left c.utf8Size_pos _
      have hlt : p < q := hstop ▸ Nat.lt_add_of_pos_right hlength
      simpa using ⟨⟨hkind, hlt⟩, hbody⟩
  | @doubled p cs _ _ ih =>
      obtain ⟨body, rfl, hbody⟩ := ih
      have hlength : p + 2 + utf8Length cs = p + utf8Length ('=' :: '=' :: cs) := by
        rw [utf8Length_cons, utf8Length_cons, ← Nat.add_assoc, ← Nat.add_assoc]
        rfl
      exact ⟨⟨.equals, p, p + 1, "="⟩ :: body, by rw [hlength]; rfl, by simpa using hbody⟩

theorem laid (h : Covers 0 cs ts) : Laid cs ts where
  spelled _ ht := h.spelled (a := []) rfl ht
  ascending := h.ascending
  front _ ht := h.front (a := []) rfl ht
  between := h.between (a := []) rfl
  ends := by simpa using h.ends

end Covers

/-! ## Splitting words -/

/-- The tokens after words have been split, without the signs between the pieces. -/
def parts (v : Vocabulary) (ts : List Token) : List Token :=
  ts.flatMap fun t ↦ if t.kind = .identifier ∧ !v.contains t.text then pieces v t.start t.text.toList else [t]

theorem covers_pieces (h : Covers (p + utf8Length cs) ds ts) : Covers p (cs ++ ds) (pieces v p cs ++ ts) := by
  induction p, cs using pieces.induct v with
  | case1 p =>
      rw [pieces]
      exact h
  | case2 p c cs kind more hpiece piece next ih =>
      have hnext : next + utf8Length (cs.drop more) = p + utf8Length (c :: cs) := by
        rw [Nat.add_assoc, ← utf8Length_append, List.cons_append, List.take_append_drop]
      have hcovers := Covers.word ((kind_of_firstPiece hpiece).imp_right And.left) (ih (hnext ▸ h))
      rw [← List.append_assoc, List.take_append_drop] at hcovers
      rw [pieces, hpiece]
      exact hcovers

theorem Covers.parts (h : Covers p cs ts) : Covers p cs (parts v ts) := by
  induction h with
  | stop => exact .stop
  | blank hblank _ ih => exact .blank hblank ih
  | @token kind text p q w cs ts hne hstop hspells hkind hequals _ ih =>
      rw [Token.parts, List.flatMap_cons]
      split
      · next hsplit =>
        obtain ⟨rfl, -⟩ := hsplit
        obtain rfl : w = text.toList := hspells.resolve_right (by simp)
        exact covers_pieces (hstop.symm ▸ ih)
      · exact .token hne hstop hspells hkind hequals ih
  | doubled _ ih => exact .doubled ih

theorem head?_insertProducts (ts : List Token) : (insertProducts ts).head? = ts.head? := by
  cases ts with
  | nil => rfl
  | cons t ts =>
      rw [insertProducts_cons]
      rfl

theorem implied_congr (h : ts.head? = us.head?) : implied t ts = implied t us := by
  cases ts <;> cases us <;> simp_all [implied]

theorem insertProducts_append_congr (h : insertProducts ts = insertProducts us) (xs : List Token) :
    insertProducts (xs ++ ts) = insertProducts (xs ++ us) := by
  induction xs with
  | nil => exact h
  | cons x xs ih =>
      have hhead : (xs ++ ts).head? = (xs ++ us).head? := by
        rw [← head?_insertProducts, ih, head?_insertProducts]
      rw [List.cons_append, List.cons_append, insertProducts_cons, insertProducts_cons, ih, implied_congr hhead]

/-- The signs between the pieces of a word are those that a product implies. -/
theorem insertProducts_signs {ps : List Token} (ht : t.kind = .identifier ∨ t.kind = .number)
    (hps : ∀ p ∈ ps, p.kind = .identifier ∨ p.kind = .number) :
    insertProducts (t :: ((ps.flatMap fun p ↦ [times p.start, p]) ++ ts)) = insertProducts (t :: (ps ++ ts)) := by
  induction ps generalizing t with
  | nil => rfl
  | cons u ps ih =>
      obtain ⟨hu, hps⟩ := List.forall_mem_cons.mp hps
      have hproduct : impliesProduct t u = true := by
        rcases ht with ht | ht <;> rcases hu with hu | hu <;>
          simp [impliesProduct, endsOperand, startsOperand, isCall, ht, hu]
      have hsign : implied t (u :: (ps ++ ts)) = [times u.start] := if_pos hproduct
      simp only [List.flatMap_cons, List.cons_append, List.nil_append]
      rw [insertProducts_cons, implied_of_not_startsOperand (startsOperand_times _), insertProducts_cons,
        implied_of_not_endsOperand (endsOperand_times _), List.nil_append, List.nil_append, ih hu hps,
        insertProducts_cons t, hsign, List.singleton_append]

theorem insertProducts_splitWords (v : Vocabulary) (ts : List Token) :
    insertProducts (splitWords v ts) = insertProducts (parts v ts) := by
  induction ts with
  | nil => rfl
  | cons t ts ih =>
      rw [splitWords, parts, List.flatMap_cons, List.flatMap_cons, ← splitWords, ← parts]
      split
      · have hkinds : ∀ u ∈ pieces v t.start t.text.toList, u.kind = .identifier ∨ u.kind = .number :=
          fun u hu ↦ (piece_of_mem hu).kind.imp_right And.left
        rw [splitWord]
        cases hpieces : pieces v t.start t.text.toList with
        | nil => exact ih
        | cons first others =>
            obtain ⟨hfirst, hothers⟩ := List.forall_mem_cons.mp (hpieces ▸ hkinds)
            rw [← insertProducts_append_congr ih]
            exact insertProducts_signs hfirst hothers
      · exact insertProducts_append_congr ih [t]

/-! ## Implied products -/

/-- Neighbours that are the factors of a product without a sign. -/
structure Factors (t u : Token) : Prop where
  left : t.kind ∈ [Kind.number, .identifier, .closeBracket]
  right : u.kind ∈ [Kind.number, .identifier, .openBracket]
  not_call : ¬(t.kind = .identifier ∧ u.kind = .openBracket ∧ (Function.ofName? t.text).isSome = true)

/-- Signs of multiplication have been put between the factors among the tokens, and nothing else has been. -/
inductive Joined : List Token → List Token → Prop
  | nil : Joined [] []
  | single {t : Token} : Joined [t] [t]
  | product {t u : Token} {ts us : List Token} : Factors t u → Joined (u :: ts) us →
      Joined (t :: u :: ts) (t :: times u.start :: us)
  | apart {t u : Token} {ts us : List Token} : ¬Factors t u → Joined (u :: ts) us →
      Joined (t :: u :: ts) (t :: us)

theorem endsOperand_iff : t.endsOperand = true ↔ t.kind ∈ [Kind.number, .identifier, .closeBracket] := by
  unfold endsOperand
  cases t.kind <;> decide

theorem startsOperand_iff : t.startsOperand = true ↔ t.kind ∈ [Kind.number, .identifier, .openBracket] := by
  unfold startsOperand
  cases t.kind <;> decide

theorem impliesProduct_iff_factors : impliesProduct t u = true ↔ Factors t u := by
  simp only [impliesProduct, isCall, Bool.and_eq_true, Bool.not_eq_true', endsOperand_iff, startsOperand_iff,
    ← Bool.not_eq_true, decide_eq_true_iff]
  constructor
  · rintro ⟨⟨hleft, hright⟩, hcall⟩
    exact ⟨hleft, hright, fun h ↦ hcall ⟨⟨h.1, h.2.1⟩, h.2.2⟩⟩
  · rintro ⟨hleft, hright, hcall⟩
    exact ⟨⟨hleft, hright⟩, fun h ↦ hcall ⟨h.1.1, h.1.2, h.2⟩⟩

theorem joined_insertProducts (ts : List Token) : Joined ts (insertProducts ts) := by
  induction ts using insertProducts.induct with
  | case1 => exact .nil
  | case2 t => exact .single
  | case3 t u ts hproduct ih =>
      rw [insertProducts, if_pos hproduct]
      exact .product (impliesProduct_iff_factors.mp hproduct) ih
  | case4 t u ts hproduct ih =>
      rw [insertProducts, if_neg hproduct]
      exact .apart (mt impliesProduct_iff_factors.mpr hproduct) ih

theorem Joined.subset (h : Joined ts us) : ts ⊆ us := by
  induction h with
  | nil => exact List.Subset.refl _
  | single => exact List.Subset.refl _
  | product _ _ ih => exact List.cons_subset_cons _ (List.subset_cons_of_subset _ ih)
  | apart _ _ ih => exact List.cons_subset_cons _ ih

/-! ## What is written -/

/-- A sign of multiplication that the text does not have where the sign stands. -/
def isImplied (cs : List Char) (t : Token) : Bool :=
  t.kind = .star && slice? cs t.start t.stop ≠ some t.text.toList

/-- The tokens that the text spells out. -/
def written (cs : List Char) (ts : List Token) : List Token := ts.filter (!isImplied cs ·)

theorem Joined.written_eq (h : Joined ts us) (hts : ∀ t ∈ ts, isImplied cs t = false)
    (hsigns : ∀ t ∈ ts, t.startsOperand = true → isImplied cs (times t.start) = true) : written cs us = ts := by
  have keep : ∀ {t : Token} {us : List Token}, isImplied cs t = false →
      written cs (t :: us) = t :: written cs us := fun ht ↦ List.filter_cons_of_pos (by simp [ht])
  induction h with
  | nil => rfl
  | single => exact keep (hts _ List.mem_cons_self)
  | product hfactors _ ih =>
      rw [List.forall_mem_cons] at hts hsigns
      have hsign := hsigns.2 _ List.mem_cons_self (startsOperand_iff.mpr hfactors.right)
      rw [keep hts.1, written, List.filter_cons_of_neg (by simp [hsign]), ← written, ih hts.2 hsigns.2]
  | apart _ _ ih =>
      rw [List.forall_mem_cons] at hts hsigns
      rw [keep hts.1, ih hts.2 hsigns.2]

theorem Laid.isImplied_eq_false (h : Laid cs ts) (ht : t ∈ ts) : isImplied cs t = false := by
  obtain ⟨w, hslice, hspells⟩ := h.spelled t ht
  by_cases hstar : t.kind = .star
  · obtain rfl : w = t.text.toList := hspells.resolve_right (by simp [hstar])
    simp [isImplied, hslice]
  · simp [isImplied, hstar]

/-- No operand begins with a star. -/
theorem Fits.exists_head (h : t.Fits) (hstarts : t.startsOperand = true) :
    ∃ c ds, t.text.toList = c :: ds ∧ c ≠ '*' := by
  have hkind := startsOperand_iff.mp hstarts
  simp only [List.mem_cons, List.not_mem_nil, or_false] at hkind
  rcases hkind with hkind | hkind | hkind <;> rw [Fits, hkind] at h
  · obtain ⟨c, hc, hstart⟩ := h.startsLiteral
    obtain ⟨ds, hcs⟩ := List.head?_eq_some_iff.mp hc
    refine ⟨c, ds, hcs, ?_⟩
    rintro rfl
    simp at hstart
  · obtain ⟨hne, hword⟩ := h
    obtain ⟨c, ds, hcs⟩ := List.exists_cons_of_ne_nil fun hnil ↦ hne (String.toList_eq_nil_iff.mp hnil)
    refine ⟨c, ds, hcs, ?_⟩
    rintro rfl
    exact absurd (hword '*' (by simp [hcs])) (by decide)
  · have hbracket : ∀ m ∈ markTexts, m.1 = .openBracket → m.2 = "(" := by decide
    have htext : t.text = "(" := hbracket (.openBracket, t.text) h rfl
    exact ⟨'(', [], by simp [htext], by decide⟩

/-- Where an operand begins there is no star. -/
theorem isImplied_times_start (hslice : slice? cs t.start t.stop = some w) (hspells : Spells w t)
    (htext : ∃ c ds, t.text.toList = c :: ds ∧ c ≠ '*') : isImplied cs (times t.start) = true := by
  obtain ⟨d, ds, rfl, hd⟩ : ∃ d ds, w = d :: ds ∧ d ≠ '*' := by
    rcases hspells with rfl | hbracket
    · exact htext
    · simp only [List.mem_cons, Prod.mk.injEq, List.not_mem_nil, or_false] at hbracket
      rcases hbracket with ⟨-, rfl, -⟩ | ⟨-, rfl, -⟩
      · exact ⟨_, _, rfl, by decide⟩
      · exact ⟨_, _, rfl, by decide⟩
  obtain ⟨a, b, hcs, ha, -⟩ := slice?_eq_some_iff.mp hslice
  have hstar : slice? cs t.start (t.start + 1) ≠ some ['*'] := by
    intro hslice
    obtain ⟨a', b', hcs', ha', -⟩ := slice?_eq_some_iff.mp hslice
    have hsplit := splitBytes?_eq_some_iff.mpr ⟨hcs, ha⟩
    rw [splitBytes?_eq_some_iff.mpr ⟨hcs', ha'⟩] at hsplit
    exact hd (List.cons.inj (Prod.mk.inj (Option.some.inj hsplit)).2).1.symm
  simp [isImplied, times, hstar]

/-- The tokens of a text are those that cover it, with signs of multiplication between factors. -/
theorem exists_covers {text : String} (h : tokenize v text = .ok ts) :
    ∃ us, Covers 0 text.toList us ∧ Joined us ts := by
  obtain ⟨words, hscan, rfl⟩ := map_eq_ok_iff.mp h
  refine ⟨parts v words, (covers_of_scan hscan).parts, ?_⟩
  rw [insertProducts_splitWords]
  exact joined_insertProducts _

/-- **Tokens stand where their texts are, and products are implied just between factors.** -/
theorem laid_of_tokenize {text : String} (h : tokenize v text = .ok ts) :
    Laid text.toList (written text.toList ts) ∧ Joined (written text.toList ts) ts ∧ ∀ t ∈ ts, t.Fits := by
  obtain ⟨us, hcovers, hjoined⟩ := exists_covers h
  have hlaid : Laid text.toList us := hcovers.laid
  have hwritten : written text.toList ts = us := by
    refine hjoined.written_eq (fun _ ht ↦ hlaid.isImplied_eq_false ht) fun t ht hstarts ↦ ?_
    obtain ⟨w, hslice, hspells⟩ := hlaid.spelled t ht
    exact isImplied_times_start hslice hspells ((fits_of_tokenize h t (hjoined.subset ht)).exists_head hstarts)
  rw [hwritten]
  exact ⟨hlaid, hjoined, fits_of_tokenize h⟩

/-- A doubled sign of equality, a call with square brackets, and a word with a letter of two bytes. -/
theorem laid_of_tokenize_sine :
    let text := "x == sin[2αx]".toList
    let ts : List Token := [⟨.identifier, 0, 1, "x"⟩, ⟨.equals, 2, 3, "="⟩, ⟨.identifier, 5, 8, "sin"⟩,
      ⟨.openBracket, 8, 9, "("⟩, ⟨.number, 9, 10, "2"⟩, ⟨.star, 10, 11, "*"⟩, ⟨.identifier, 10, 12, "α"⟩,
      ⟨.star, 12, 13, "*"⟩, ⟨.identifier, 12, 13, "x"⟩, ⟨.closeBracket, 13, 14, ")"⟩, ⟨.stop, 14, 14, ""⟩]
    tokenize (.ofList ["x"]) "x == sin[2αx]" = .ok ts ∧
      Laid text (written text ts) ∧ Joined (written text ts) ts ∧ ∀ t ∈ ts, t.Fits := by
  intro text ts
  have htokens : tokenize (.ofList ["x"]) "x == sin[2αx]" = .ok ts := eq_ok_of_toOption (by decide +kernel)
  exact ⟨htokens, laid_of_tokenize htokens⟩

end Token

end FormulaNet

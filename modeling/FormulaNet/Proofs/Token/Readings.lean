import FormulaNet.Proofs.Token.Layout
import FormulaNet.Proofs.Token.Pieces

/-!
# Texts without blanks and stars

Blanks and stars say where tokens end, so a text without them may be read in more ways than one: `0.5` may have been
two numbers, and `pi` two symbols.  `readings` lists the ways, stars aside; the tokens of a text are one of those of
what is kept of it.
-/

namespace FormulaNet

/-! ## Known words -/

namespace Vocabulary

variable {v : Vocabulary} {cs : List Char} {n : Nat}

theorem exists_word_of_longestWord (h : v.longestWord cs = n + 1) : ∃ u ∈ v.words, u.toList = cs.take (n + 1) := by
  obtain ⟨x, hx⟩ : ∃ x, x ∈ v.words.filter (·.toList.isPrefixOf cs) := by
    refine List.exists_mem_of_ne_nil _ fun hnil ↦ ?_
    rw [longestWord, hnil] at h
    cases h
  obtain ⟨hword, hfront⟩ := List.mem_filter.mp hx
  obtain ⟨u, hu, hprefix, hlength, -⟩ := exists_longestWord hword (List.isPrefixOf_iff_prefix.mp hfront)
  refine ⟨u, hu, ?_⟩
  rw [List.prefix_iff_eq_take.mp hprefix, String.length_toList, ← hlength, h]

end Vocabulary

namespace Token

open Text

variable {v : Vocabulary} {p : Nat} {c : Char} {cs ds w : List Char} {t u : Token} {ts us : List Token}

/-- An identifier is a known word, or a single character. -/
def Known (v : Vocabulary) (t : Token) : Prop :=
  t.kind = .identifier → v.contains t.text = true ∨ ∃ c, t.text.toList = [c] ∧ c.isDigit = false

theorem known_of_mem_pieces (ht : t ∈ pieces v p cs) : Known v t := by
  induction p, cs using pieces.induct v with
  | case1 p =>
      rw [pieces] at ht
      cases ht
  | case2 p c cs kind more hpiece piece next ih =>
      rw [pieces, hpiece] at ht
      rcases List.mem_cons.mp ht with rfl | ht
      · intro hkind
        obtain rfl : kind = .identifier := hkind
        unfold firstPiece at hpiece
        split at hpiece
        · next n hlongest =>
          obtain ⟨-, rfl⟩ := Prod.mk.inj hpiece
          obtain ⟨u, hu, htext⟩ := Vocabulary.exists_word_of_longestWord hlongest
          rw [List.take_succ_cons] at htext
          refine .inl (Vocabulary.contains_iff.mpr (.inl ?_))
          rwa [← htext, String.ofList_toList]
        · split at hpiece
          · cases (Prod.mk.inj hpiece).1
          · next hdigit =>
            obtain ⟨-, rfl⟩ := Prod.mk.inj hpiece
            exact .inr ⟨c, by simp, by simpa using hdigit⟩
      · exact ih ht

theorem fits_and_known_of_mem_parts (hscan : scan p cs = .ok ts) (ht : t ∈ parts v ts) : t.Fits ∧ Known v t := by
  obtain ⟨u, hu, ht⟩ := List.mem_flatMap.mp ht
  have hscanned := scanned_of_scan hscan hu
  split at ht
  · next hsplit =>
    exact ⟨(piece_of_mem ht).fits (hscanned.isWord hsplit.1), known_of_mem_pieces ht⟩
  · next hkeep =>
    obtain rfl := List.mem_singleton.mp ht
    refine ⟨hscanned.fits, fun hkind ↦ .inl ?_⟩
    by_contra hnew
    exact hkeep ⟨hkind, by simpa using hnew⟩

/-- The tokens of a text are those that cover it, with signs of multiplication between factors; each has a text for
its kind, and the identifiers are known. -/
theorem exists_parts {text : String} (h : tokenize v text = .ok ts) :
    ∃ us, Covers 0 text.toList us ∧ Joined us ts ∧ ∀ t ∈ us, t.Fits ∧ Known v t := by
  obtain ⟨words, hscan, rfl⟩ := map_eq_ok_iff.mp h
  refine ⟨parts v words, (covers_of_scan hscan).parts, ?_, fun t ht ↦ fits_and_known_of_mem_parts hscan ht⟩
  rw [insertProducts_splitWords]
  exact joined_insertProducts _

/-! ## Stars -/

/-- A token without its place. -/
def bare (t : Token) : Token := ⟨t.kind, 0, 0, t.text⟩

/-- A sign of multiplication, or a power that is written with stars. -/
def isStars (t : Token) : Bool := t.text = "*" || t.text = "**"

/-- The tokens but for the stars, without their places. -/
def unstarred (ts : List Token) : List Token := (ts.filter (!·.isStars)).map bare

/-- The characters of a text but for blanks and stars. -/
def kept (cs : List Char) : List Char := cs.filter fun c ↦ !isBlank c && c != '*'

theorem unstarred_cons_of_isStars (h : t.isStars = true) : unstarred (t :: ts) = unstarred ts := by
  rw [unstarred, List.filter_cons_of_neg (by simp [h]), unstarred]

theorem unstarred_cons (h : t.isStars = false) : unstarred (t :: ts) = t.bare :: unstarred ts := by
  rw [unstarred, List.filter_cons_of_pos (by simp [h]), List.map_cons, unstarred]

theorem Joined.unstarred_eq (h : Joined ts us) : unstarred us = unstarred ts := by
  have hcons : ∀ {t : Token} {ts us : List Token}, unstarred us = unstarred ts →
      unstarred (t :: us) = unstarred (t :: ts) := by
    intro t ts us heq
    cases ht : t.isStars with
    | true => rw [unstarred_cons_of_isStars ht, unstarred_cons_of_isStars ht, heq]
    | false => rw [unstarred_cons ht, unstarred_cons ht, heq]
  induction h with
  | nil => rfl
  | single => rfl
  | product _ _ ih => exact hcons ((unstarred_cons_of_isStars rfl).trans ih)
  | apart _ _ ih => exact hcons ih

/-! ## Readings -/

def inNumber (c : Char) : Bool := c.isDigit || ['.', 'e', 'E', '+', '-'].contains c

/-- What a number looks like from afar. -/
def isNumeral (w : List Char) : Bool :=
  w.all inNumber && w.count '.' ≤ 1 && (startsWithDigit w || w.head? = some '.' && startsWithDigit w.tail)

theorem Continues.inNumber {pointSeen : Bool} (h : Continues pointSeen cs) : ∀ c ∈ cs, inNumber c = true := by
  have hmark : ∀ {c : Char}, Numeral.isExponentMark c = true → Token.inNumber c = true := by
    intro c hc
    rw [Numeral.isExponentMark, Bool.or_eq_true, decide_eq_true_iff, decide_eq_true_iff] at hc
    rcases hc with rfl | rfl <;> decide
  have hsigns : ∀ sign ∈ [[], ['+'], ['-']], sign.all Token.inNumber = true := by decide
  induction h with
  | stop => exact List.forall_mem_nil _
  | digit hdigit _ ih => exact List.forall_mem_cons.mpr ⟨by simp [Token.inNumber, hdigit], ih⟩
  | point _ ih => exact List.forall_mem_cons.mpr ⟨by decide, ih⟩
  | exponent hexp hsign _ _ ih =>
      exact List.forall_mem_cons.mpr ⟨hmark hexp, List.forall_mem_append.mpr
        ⟨List.all_eq_true.mp (hsigns _ hsign), ih⟩⟩

/-- A number has one point, unless one has been seen before. -/
theorem Continues.count_point {pointSeen : Bool} (h : Continues pointSeen cs) :
    cs.count '.' ≤ if pointSeen then 0 else 1 := by
  have hsigns : ∀ sign ∈ [[], ['+'], ['-']], sign.count '.' = 0 := by decide
  induction h with
  | stop => simp
  | digit hdigit _ ih => rwa [List.count_cons_of_ne (ne_point_of_isDigit hdigit)]
  | point _ ih => simpa using ih
  | @exponent _ c _ _ hexp hsign _ _ ih =>
      have hc : c ≠ '.' := by
        rintro rfl
        exact absurd hexp (by decide)
      rwa [List.count_cons_of_ne hc, List.count_append, hsigns _ hsign, Nat.zero_add]

theorem IsNumber.isNumeral (h : IsNumber w) : isNumeral w = true := by
  rw [Token.isNumeral, Bool.and_eq_true, Bool.and_eq_true, decide_eq_true_iff, Bool.or_eq_true]
  refine ⟨⟨List.all_eq_true.mpr h.continues.inNumber, h.continues.count_point⟩, h.starts.imp_right ?_⟩
  rintro ⟨ds, rfl, hdigit⟩
  simpa using hdigit

/-- How marks are written, and what they are. -/
def spellings : List (String × Kind × String) :=
  ("[", .openBracket, "(") :: ("]", .closeBracket, ")") :: ("==", .equals, "=") :: markTexts.map fun m ↦ (m.2, m)

/-- The tokens that some characters may write. -/
def spelledBy (v : Vocabulary) (w : List Char) : List Token :=
  let text := String.ofList w
  (if isNumeral w then [⟨.number, 0, 0, text⟩] else []) ++
    (if v.contains text || w.length = 1 && w.all (fun c ↦ continuesWord c && !c.isDigit) then
      [⟨.identifier, 0, 0, text⟩] else []) ++
    (spellings.filter (·.1 = text)).map fun m ↦ ⟨m.2.1, 0, 0, m.2.2⟩

/-- The ways to read a word, of which some characters have been passed, and what follows it. -/
def readingsFrom (v : Vocabulary) (passed : List Char) : List Char → List (List Token)
  | [] => (spelledBy v passed.reverse).map fun t ↦ [t, ⟨.stop, 0, 0, ""⟩]
  | c :: cs => readingsFrom v (c :: passed) cs ++
      (spelledBy v passed.reverse).flatMap fun t ↦ (readingsFrom v [c] cs).map (t :: ·)

/-- The ways to read a text without blanks and stars. -/
def readings (v : Vocabulary) : List Char → List (List Token)
  | [] => [[⟨.stop, 0, 0, ""⟩]]
  | c :: cs => readingsFrom v [c] cs

theorem cons_mem_readingsFrom (passed : List Char) (ht : t ∈ spelledBy v (passed.reverse ++ ds))
    (hts : ts ∈ readings v cs) : t :: ts ∈ readingsFrom v passed (ds ++ cs) := by
  induction ds generalizing passed with
  | nil =>
      rw [List.append_nil] at ht
      cases cs with
      | nil =>
          obtain rfl := List.mem_singleton.mp hts
          exact List.mem_map_of_mem ht
      | cons c cs =>
          exact List.mem_append_right _ (List.mem_flatMap.mpr ⟨t, ht, List.mem_map_of_mem hts⟩)
  | cons d ds ih =>
      have ht' : t ∈ spelledBy v ((d :: passed).reverse ++ ds) := by simpa using ht
      exact List.mem_append_left _ (ih (d :: passed) ht')

theorem cons_mem_readings (hw : w ≠ []) (ht : t ∈ spelledBy v w) (hts : ts ∈ readings v cs) :
    t :: ts ∈ readings v (w ++ cs) := by
  obtain ⟨c, ds, rfl⟩ := List.exists_cons_of_ne_nil hw
  exact cons_mem_readingsFrom [c] ht hts

/-! ## The readings of a text -/

theorem apart_blank_numeric : apart blankRanges numericRanges = true := by decide +kernel

theorem isBlank_of_continuesWord (h : continuesWord c = true) : isBlank c = false := by
  rw [continuesWord, isAlphanumeric, Bool.or_eq_true, Bool.or_eq_true, decide_eq_true_iff] at h
  rcases h with (h | h) | rfl
  · exact inRanges_eq_false_of_apart apart_blank_alphabetic h
  · exact inRanges_eq_false_of_apart apart_blank_numeric h
  · decide

theorem isBlank_of_inNumber (h : inNumber c = true) : isBlank c = false := by
  have hmarks : ['.', 'e', 'E', '+', '-'].all (!isBlank ·) = true := by decide
  rw [inNumber, Bool.or_eq_true, List.contains_iff_mem] at h
  exact h.elim isBlank_of_isDigit fun hmem ↦ by simpa using List.all_eq_true.mp hmarks c hmem

theorem ne_star_of_continuesWord (h : continuesWord c = true) : c ≠ '*' := by
  rintro rfl
  exact absurd h (by decide)

theorem ne_star_of_inNumber (h : inNumber c = true) : c ≠ '*' := by
  rintro rfl
  exact absurd h (by decide)

theorem kept_eq_self (h : ∀ c ∈ w, isBlank c = false ∧ c ≠ '*') : kept w = w :=
  List.filter_eq_self.mpr fun c hc ↦ by simp [h c hc]

theorem Fits.mem_markTexts (h : t.Fits) (hkind : t.kind ∉ [Kind.stop, .number, .identifier]) :
    (t.kind, t.text) ∈ markTexts := by
  unfold Fits at h
  split at h <;> simp_all

/-- How a mark is written, by one of the spellings. -/
theorem exists_spelling (hfits : t.Fits) (hspells : Spells w t)
    (hkind : t.kind ∉ [Kind.stop, .number, .identifier]) :
    ∃ s, s.toList = w ∧ (s, t.kind, t.text) ∈ spellings := by
  rcases hspells with rfl | hbracket
  · exact ⟨t.text, rfl, .tail _ (.tail _ (.tail _ (List.mem_map.mpr ⟨_, hfits.mem_markTexts hkind, rfl⟩)))⟩
  · simp only [List.mem_cons, Prod.mk.injEq, List.not_mem_nil, or_false] at hbracket
    rcases hbracket with ⟨hkind, rfl, htext⟩ | ⟨hkind, rfl, htext⟩
    · exact ⟨"[", by simp, by rw [hkind, htext]; exact .head _⟩
    · exact ⟨"]", by simp, by rw [hkind, htext]; exact .tail _ (.head _)⟩

theorem mem_spelledBy_of_spelling {s text : String} {kind : Kind} (h : (s, kind, text) ∈ spellings) :
    ⟨kind, 0, 0, text⟩ ∈ spelledBy v s.toList := by
  refine List.mem_append_right _ (List.mem_map.mpr ⟨(s, kind, text), List.mem_filter.mpr ⟨h, ?_⟩, rfl⟩)
  rw [String.ofList_toList, decide_eq_true_iff]

/-- What is written is kept, unless it is stars, and it writes the token. -/
theorem bare_mem_spelledBy (hfits : t.Fits) (hknown : Known v t) (hstop : t.kind ≠ .stop) (hspells : Spells w t)
    (hstars : t.isStars = false) : kept w = w ∧ t.bare ∈ spelledBy v w := by
  by_cases hnumber : t.kind = .number
  · obtain rfl : w = t.text.toList := hspells.resolve_right (by simp [hnumber])
    have h : IsNumber t.text.toList := hfits.isNumber hnumber
    refine ⟨kept_eq_self fun c hc ↦ ⟨isBlank_of_inNumber (h.continues.inNumber c hc),
      ne_star_of_inNumber (h.continues.inNumber c hc)⟩, ?_⟩
    refine List.mem_append_left _ (List.mem_append_left _ ?_)
    rw [if_pos h.isNumeral, String.ofList_toList, bare, hnumber]
    exact List.mem_singleton.mpr rfl
  · by_cases hword : t.kind = .identifier
    · obtain rfl : w = t.text.toList := hspells.resolve_right (by simp [hword])
      have h : t.text ≠ "" ∧ IsWord t.text := by rwa [Fits, hword] at hfits
      refine ⟨kept_eq_self fun c hc ↦ ⟨isBlank_of_continuesWord (h.2 c hc), ne_star_of_continuesWord (h.2 c hc)⟩, ?_⟩
      refine List.mem_append_left _ (List.mem_append_right _ ?_)
      have hcond : v.contains t.text = true ∨ t.text.toList.length = 1 ∧
          t.text.toList.all (fun c ↦ continuesWord c && !c.isDigit) = true := by
        refine (hknown hword).imp_right ?_
        rintro ⟨c, hc, hdigit⟩
        have hcontinues := h.2 c (by simp [hc])
        simp [hc, hdigit, hcontinues]
      rw [String.ofList_toList, if_pos (by simpa using hcond), bare, hword]
      exact List.mem_singleton.mpr rfl
    · obtain ⟨s, rfl, hs⟩ := exists_spelling hfits hspells (by simp [hstop, hnumber, hword])
      have hkept : ∀ m ∈ spellings, m.2.2 ∉ ["*", "**"] → kept m.1.toList = m.1.toList := by decide
      exact ⟨hkept _ hs (by simpa [isStars] using hstars), mem_spelledBy_of_spelling hs⟩

theorem kept_of_isStars (hspells : Spells w t) (hstars : t.isStars = true) : kept w = [] := by
  have hstars' : t.text = "*" ∨ t.text = "**" := by simpa [isStars] using hstars
  rcases hspells with rfl | hbracket
  · rcases hstars' with htext | htext <;> rw [htext] <;> simp [kept]
  · simp only [List.mem_cons, Prod.mk.injEq, List.not_mem_nil, or_false] at hbracket
    rcases hbracket with ⟨-, -, htext⟩ | ⟨-, -, htext⟩ <;> simp [htext] at hstars'

/-- **The tokens of a text are read off what is kept of it.** -/
theorem Covers.unstarred_mem_readings (h : Covers p cs ts) (hvalid : ∀ t ∈ ts, t.Fits ∧ Known v t) :
    unstarred ts ∈ readings v (kept cs) := by
  induction h with
  | stop => exact List.mem_singleton.mpr rfl
  | @blank p c cs ts hblank _ ih =>
      rw [kept, List.filter_cons_of_neg (by simp [hblank])]
      exact ih hvalid
  | @token kind text p q w cs ts hne _ hspells hstop _ _ ih =>
      obtain ⟨⟨hfits, hknown⟩, hvalid⟩ := List.forall_mem_cons.mp hvalid
      rw [kept, List.filter_append, ← kept, ← kept]
      cases hstars : isStars ⟨kind, p, q, text⟩ with
      | true =>
          rw [unstarred_cons_of_isStars hstars, kept_of_isStars hspells hstars]
          exact ih hvalid
      | false =>
          obtain ⟨hkept, hmem⟩ := bare_mem_spelledBy hfits hknown hstop hspells hstars
          rw [unstarred_cons hstars, hkept]
          exact cons_mem_readings hne hmem (ih hvalid)
  | @doubled p cs ts _ ih =>
      have hmem : (⟨.equals, 0, 0, "="⟩ : Token) ∈ spelledBy v ['=', '='] :=
        List.mem_append_right _ (by decide)
      exact cons_mem_readings (w := ['=', '=']) (by simp) hmem (ih (List.forall_mem_cons.mp hvalid).2)

/-- Only stars have stars in their texts. -/
theorem Fits.star_notMem (h : t.Fits) (hkind : t.kind ∉ [Kind.star, .caret]) : '*' ∉ t.text.toList := by
  have hmarks : ∀ m ∈ markTexts, m.1 ∉ [Kind.star, .caret] → '*' ∉ m.2.toList := by decide
  unfold Fits at h
  split at h
  · simp [h]
  · exact fun hmem ↦ ne_star_of_inNumber (h.continues.inNumber _ hmem) rfl
  · exact fun hmem ↦ ne_star_of_continuesWord (h.2 _ hmem) rfl
  · exact hmarks _ h hkind

/-! ## Words -/

theorem exists_words_of_mem_readingsFrom {passed : List Char} (hpassed : passed ≠ [])
    (h : ts ∈ readingsFrom v passed cs) : ∃ ws : List (List Char), passed.reverse ++ cs = ws.flatten ∧
      ∀ w ∈ ws, w ≠ [] ∧ ∃ t ∈ ts, t ∈ spelledBy v w := by
  have hword : passed.reverse ≠ [] := mt List.reverse_eq_nil_iff.mp hpassed
  induction cs generalizing passed ts with
  | nil =>
      obtain ⟨t, ht, rfl⟩ := List.mem_map.mp h
      exact ⟨[passed.reverse], by simp, List.forall_mem_singleton.mpr ⟨hword, t, .head _, ht⟩⟩
  | cons c cs ih =>
      rcases List.mem_append.mp h with hmore | hnext
      · obtain ⟨ws, heq, hws⟩ := ih (List.cons_ne_nil c passed) hmore (by simp)
        exact ⟨ws, by simpa using heq, hws⟩
      · obtain ⟨t, ht, hrest⟩ := List.mem_flatMap.mp hnext
        obtain ⟨us, hus, rfl⟩ := List.mem_map.mp hrest
        obtain ⟨ws, heq, hws⟩ := ih (List.cons_ne_nil c []) hus (by simp)
        refine ⟨passed.reverse :: ws, ?_, List.forall_mem_cons.mpr ⟨⟨hword, t, .head _, ht⟩, fun w hw ↦ ?_⟩⟩
        · rw [List.flatten_cons, ← heq, List.reverse_singleton, List.singleton_append]
        · obtain ⟨hne, u, hu, hspelled⟩ := hws w hw
          exact ⟨hne, u, .tail _ hu, hspelled⟩

/-- A text falls into the words that its tokens are read off. -/
theorem exists_words_of_mem_readings (h : ts ∈ readings v cs) :
    ∃ ws : List (List Char), cs = ws.flatten ∧ ∀ w ∈ ws, w ≠ [] ∧ ∃ t ∈ ts, t ∈ spelledBy v w := by
  cases cs with
  | nil => exact ⟨[], rfl, nofun⟩
  | cons c cs => exact exists_words_of_mem_readingsFrom (List.cons_ne_nil c []) h

end Token

end FormulaNet

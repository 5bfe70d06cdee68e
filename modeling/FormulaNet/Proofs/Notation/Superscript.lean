import FormulaNet.Proofs.Exact
import FormulaNet.Proofs.Expr.Exponent
import FormulaNet.Proofs.Notation.Settled

/-!
# Exponents in superscripts

A run of superscripts is read as an exponent.  Brought to plain notation it stands after a caret, in brackets if it is
longer than one character, and the text before and after it is brought to plain notation as if it stood beside
brackets.  So it is read as the same integer in brackets would be.  A single digit gets no brackets, so this
holds of it only where what follows does not go on with a number.
-/

namespace FormulaNet

variable {x : Char} {a b n s t : List Char}

/-! ## Ends of texts -/

namespace Text

variable {old new : List Char} {P : Char → Prop}

theorem forall_head?_replaceAll (hne : new ≠ []) (hnew : ∀ c ∈ new, P c) (h : ∀ c ∈ t.head?, P c) :
    ∀ c ∈ (replaceAll old new t).head?, P c := by
  cases t with
  | nil => rwa [replaceAll_nil]
  | cons d t =>
      by_cases hprefix : old <+: d :: t
      · obtain ⟨e, new, rfl⟩ := List.exists_cons_of_ne_nil hne
        rw [replaceAll_of_isPrefix hprefix]
        rintro c ⟨rfl⟩
        exact hnew e List.mem_cons_self
      · rw [replaceAll_of_not_isPrefix hprefix]
        exact h

theorem replaceAll_eq_nil_iff (hne : new ≠ []) : replaceAll old new t = [] ↔ t = [] := by
  cases t with
  | nil => simp
  | cons d t =>
      by_cases hprefix : old <+: d :: t
      · simp [replaceAll_of_isPrefix hprefix, hne]
      · simp [replaceAll_of_not_isPrefix hprefix]

theorem forall_getLast?_replaceAll (hne : new ≠ []) (hnew : ∀ c ∈ new, P c) (h : ∀ c ∈ t.getLast?, P c) :
    ∀ c ∈ (replaceAll old new t).getLast?, P c := by
  fun_induction replaceAll old new t with
  | case1 => exact h
  | case2 d t hprefix ih =>
      intro c hc
      rw [List.getLast?_append, Option.mem_def, Option.or_eq_some_iff] at hc
      rcases hc with hc | ⟨-, hc⟩
      · refine ih (fun e he ↦ h e ?_) c hc
        rw [List.getLast?_drop] at he
        split at he
        · cases he
        · rw [List.getLast?_cons, Option.mem_def.mp he]
          rfl
      · exact hnew c (List.mem_of_getLast? hc)
  | case3 d t hprefix ih =>
      cases t with
      | nil =>
          rw [replaceAll_nil]
          exact h
      | cons e t =>
          have hrest : replaceAll old new (e :: t) ≠ [] := mt (replaceAll_eq_nil_iff hne).mp (List.cons_ne_nil e t)
          rw [List.getLast?_cons_of_ne_nil hrest]
          exact ih h

end Text

/-- What leaves each of some characters at the front of a text leaves all of them there. -/
theorem append_of_forall_cons {f : List Char → List Char} (h : ∀ c ∈ s, ∀ t, f (c :: t) = c :: f t) (t : List Char) :
    f (s ++ t) = s ++ f t := by
  induction s with
  | nil => rfl
  | cons c s ih =>
      obtain ⟨hc, hs⟩ := List.forall_mem_cons.mp h
      rw [List.cons_append, hc, ih hs, List.cons_append]

namespace Notation

open Text

/-! ## Text beside brackets and superscripts -/

/-- A character that stays as it is and is part of no symbol. -/
structure Neutral (x : Char) : Prop where
  isBlank : isBlank x = false
  unaliased : Unaliased x
  isPlain : IsPlain x
  isAlphabetic : isAlphabetic x = false
  isAlpha : x.isAlpha = false
  ne_underscore : x ≠ '_'

theorem neutral_of_superscript? {c d : Char} (h : superscript? c = some d) : Neutral d := by
  unfold superscript? at h
  split at h <;> cases h <;> exact ⟨by decide, by decide, by decide, by decide, by decide, by decide⟩

theorem Separator.neutral (h : Separator x) : Neutral x :=
  ⟨h.isBlank, h.unaliased, ⟨h.superscript?, h.glyph?⟩, (Bool.or_eq_false_iff.mp h.isAlphanumeric).1, h.isAlpha,
    h.ne_underscore⟩

theorem neutral_brackets (hn : ∀ c ∈ n, Neutral c) : ∀ c ∈ '(' :: (n ++ [')']), Neutral c := by
  rw [List.forall_mem_cons, List.forall_mem_append, List.forall_mem_singleton]
  exact ⟨(separator_of_mem_delimiters (by decide)).neutral, hn, (separator_of_mem_delimiters (by decide)).neutral⟩

/-- Superscripts are not blank and are in no alias. -/
theorem unaliased_of_superscript? {c d : Char} (h : superscript? c = some d) :
    isBlank c = false ∧ Unaliased c := by
  unfold superscript? at h
  split at h <;> cases h <;> exact ⟨by decide, by decide⟩

theorem trim_append (hne : s ≠ []) (h : ∀ c ∈ s, isBlank c = false) :
    trim (a ++ (s ++ b)) = trimStart a ++ (s ++ trimEnd b) := by
  obtain ⟨x, s, rfl⟩ := List.exists_cons_of_ne_nil hne
  obtain ⟨hx, hs⟩ := List.forall_mem_cons.mp h
  have hend : trimEnd (s ++ b) = s ++ trimEnd b :=
    append_of_forall_cons (fun c hc t ↦ trimEnd_append_cons (a := []) (hs c hc)) b
  rw [List.cons_append, trim_append_cons hx, hend, List.cons_append]

theorem replaceAliases_cons (hx : Unaliased x) : replaceAliases (x :: b) = x :: replaceAliases b := by
  have hnil : replaceAliases [] = [] := by simp [replaceAliases, aliases]
  rw [← List.nil_append (x :: b), replaceAliases_append_cons hx, hnil, List.nil_append]

theorem replaceAliases_append (hne : s ≠ []) (h : ∀ c ∈ s, Unaliased c) :
    replaceAliases (a ++ (s ++ b)) = replaceAliases a ++ (s ++ replaceAliases b) := by
  obtain ⟨x, s, rfl⟩ := List.exists_cons_of_ne_nil hne
  obtain ⟨hx, hs⟩ := List.forall_mem_cons.mp h
  have hrest : replaceAliases (s ++ b) = s ++ replaceAliases b :=
    append_of_forall_cons (fun c hc t ↦ replaceAliases_cons (hs c hc)) b
  rw [List.cons_append, replaceAliases_append_cons hx, hrest, List.cons_append]

/-- The passes that join what belongs to one symbol. -/
def join (t : List Char) : List Char := joinSuperscripts [] (joinSubscripts false t)

theorem Neutral.join_cons (h : Neutral x) (t : List Char) : join (x :: t) = x :: join t := by
  rw [join, joinSubscripts_cons_of_not_joins fun hjoins ↦ h.ne_underscore hjoins.1, h.isAlphabetic,
    joinSuperscripts_cons_of_not_joins fun hjoins ↦ hjoins.2.1 rfl, h.isAlpha]
  rfl

/-- Nothing is joined across a caret before characters that are part of no symbol. -/
theorem join_append_caret (hne : s ≠ []) (h : ∀ c ∈ s, Neutral c) :
    join (a ++ '^' :: (s ++ b)) = join a ++ '^' :: (s ++ join b) := by
  have hs : join (s ++ b) = s ++ join b := append_of_forall_cons (fun c hc ↦ (h c hc).join_cons) b
  have hnext : goesOn Char.isAlpha (joinSubscripts false (s ++ b)) = false := by
    obtain ⟨x, s, rfl⟩ := List.exists_cons_of_ne_nil hne
    rw [goesOn_joinSubscripts]
    exact (h x List.mem_cons_self).isAlpha
  rw [join, joinSubscripts_append_cons (by decide) (by decide), joinSuperscripts_append_cons (by decide) fun _ ↦ hnext,
    ← join, ← join, hs]

/-! ## Superscripts -/

theorem snd_ne_nil_of_mem_aliases : ∀ p ∈ aliases, p.2 ≠ [] := by decide

theorem forall_head?_replaceAliases (h : ∀ c ∈ t.head?, superscript? c = none) :
    ∀ c ∈ (replaceAliases t).head?, superscript? c = none :=
  replaceAliases_induction (P := fun t ↦ ∀ c ∈ t.head?, superscript? c = none) (fun p hp _ ↦
    forall_head?_replaceAll (snd_ne_nil_of_mem_aliases p hp) fun c hc ↦ (isPlain_of_mem_aliases hp c hc).1) h

theorem forall_getLast?_replaceAliases (h : ∀ c ∈ t.getLast?, superscript? c = none) :
    ∀ c ∈ (replaceAliases t).getLast?, superscript? c = none :=
  replaceAliases_induction (P := fun t ↦ ∀ c ∈ t.getLast?, superscript? c = none) (fun p hp _ ↦
    forall_getLast?_replaceAll (snd_ne_nil_of_mem_aliases p hp) fun c hc ↦ (isPlain_of_mem_aliases hp c hc).1) h

/-- A run of superscripts begins after a character that is none. -/
theorem replaceGlyphs_append_of_getLast? {run : List Char} (ha : ∀ c ∈ a.getLast?, superscript? c = none)
    (hrun : a = [] → run = []) : replaceGlyphs run (a ++ b) = replaceGlyphs run a ++ replaceGlyphs [] b := by
  induction a generalizing run with
  | nil =>
      rw [hrun rfl]
      rfl
  | cons c a ih =>
      have hrest : ∀ d ∈ a.getLast?, superscript? d = none := by
        intro d hd
        refine ha d ?_
        rw [List.getLast?_cons, Option.mem_def.mp hd]
        rfl
      rw [List.cons_append, replaceGlyphs.eq_def run (c :: (a ++ b)), replaceGlyphs.eq_def run (c :: a)]
      dsimp only
      split
      · next d hd =>
        refine ih hrest ?_
        rintro rfl
        rw [ha c rfl] at hd
        cases hd
      · rw [ih hrest fun _ ↦ rfl, List.append_assoc, List.append_assoc]

theorem replaceGlyphs_superscripts {run : List Char} (hs : s.map superscript? = n.map some) :
    replaceGlyphs run s = power (run ++ n) := by
  induction s generalizing n run with
  | nil =>
      rw [List.map_eq_nil_iff.mp hs.symm, List.append_nil]
      rfl
  | cons c s ih =>
      obtain ⟨d, n, rfl⟩ : ∃ d n', n = d :: n' := by
        cases n with
        | nil => cases hs
        | cons d n => exact ⟨d, n, rfl⟩
      obtain ⟨hc, hs⟩ := List.cons.inj hs
      rw [replaceGlyphs, hc]
      dsimp only
      rw [ih hs, List.append_assoc, List.singleton_append]

/-- Superscripts that write an integer, and the integer in plain characters. -/
structure RaisedInteger (s n : List Char) : Prop where
  plain : s.map superscript? = n.map some
  integer : Numeral.isDigits n = true ∨ ∃ ds, n = '-' :: ds ∧ Numeral.isDigits ds = true

namespace RaisedInteger

theorem ne_nil (h : RaisedInteger s n) : n ≠ [] := by
  rintro rfl
  rcases h.integer with h | ⟨ds, h, -⟩
  · cases h
  · cases h

theorem length_eq (h : RaisedInteger s n) : s.length = n.length := by
  simpa using congrArg List.length h.plain

theorem unaliased (h : RaisedInteger s n) : ∀ c ∈ s, isBlank c = false ∧ Unaliased c := by
  intro c hc
  have hmem := List.mem_map_of_mem (f := superscript?) hc
  rw [h.plain, List.mem_map] at hmem
  obtain ⟨d, -, hd⟩ := hmem
  exact unaliased_of_superscript? hd.symm

theorem neutral (h : RaisedInteger s n) : ∀ d ∈ n, Neutral d := by
  intro d hd
  have hmem := List.mem_map_of_mem (f := some) hd
  rw [← h.plain, List.mem_map] at hmem
  obtain ⟨c, -, hc⟩ := hmem
  exact neutral_of_superscript? hc

end RaisedInteger

/-- The plain notation of a text but for the blanks at its ends. -/
def transcribe (t : List Char) : List Char := join (replaceGlyphs [] (replaceAliases t))

theorem exists_power_eq (hn : ∀ c ∈ n, Neutral c) (hne : n ≠ []) :
    ∃ w, power n = '^' :: w ∧ w ≠ [] ∧ ∀ c ∈ w, Neutral c := by
  unfold power
  split
  · exact absurd rfl hne
  · exact ⟨_, rfl, List.cons_ne_nil _ _, hn⟩
  · exact ⟨_, rfl, List.cons_ne_nil _ _, neutral_brackets hn⟩

/-- Superscripts become a power, and what is before and after them does not see them. -/
theorem normalizeChars_superscripts (hs : RaisedInteger s n) (ha : ∀ c ∈ a.getLast?, superscript? c = none)
    (hb : ∀ c ∈ b.head?, superscript? c = none) :
    normalizeChars (a ++ (s ++ b)) = transcribe (trimStart a) ++ (power n ++ transcribe (trimEnd b)) := by
  have hne : s ≠ [] := by
    rintro rfl
    exact hs.ne_nil (List.map_eq_nil_iff.mp hs.plain.symm)
  have hbefore : ∀ c ∈ (replaceAliases (trimStart a)).getLast?, superscript? c = none :=
    forall_getLast?_replaceAliases fun c hc ↦ ha c (mem_getLast?_of_isSuffix (trimStart_isSuffix a) hc)
  have hafter : ∀ c ∈ (replaceAliases (trimEnd b)).head?, superscript? c = none :=
    forall_head?_replaceAliases fun c hc ↦ hb c (mem_head?_of_isPrefix (trimEnd_isPrefix b) hc)
  obtain ⟨w, hpower, hw, hneutral⟩ := exists_power_eq hs.neutral hs.ne_nil
  rw [normalizeChars, trim_append hne fun c hc ↦ (hs.unaliased c hc).1,
    replaceAliases_append hne fun c hc ↦ (hs.unaliased c hc).2,
    replaceGlyphs_append_of_getLast? hbefore fun _ ↦ rfl, replaceGlyphs_append hafter,
    replaceGlyphs_superscripts hs.plain, List.nil_append, hpower, List.cons_append, ← join,
    join_append_caret hw hneutral]
  rfl

theorem normalizeChars_brackets (hs : RaisedInteger s n) :
    normalizeChars (a ++ ('^' :: '(' :: (n ++ [')']) ++ b)) =
      transcribe (trimStart a) ++ ('^' :: '(' :: (n ++ [')']) ++ transcribe (trimEnd b)) := by
  have hneutral := neutral_brackets hs.neutral
  have hblank : ∀ c ∈ '^' :: '(' :: (n ++ [')']), isBlank c = false :=
    List.forall_mem_cons.mpr ⟨by decide, fun c hc ↦ (hneutral c hc).isBlank⟩
  have haliases : ∀ c ∈ '^' :: '(' :: (n ++ [')']), Unaliased c :=
    List.forall_mem_cons.mpr ⟨by decide, fun c hc ↦ (hneutral c hc).unaliased⟩
  have hplain : ∀ c ∈ '^' :: '(' :: (n ++ [')']), IsPlain c :=
    List.forall_mem_cons.mpr ⟨by decide, fun c hc ↦ (hneutral c hc).isPlain⟩
  have hglyphs : ∀ t, replaceGlyphs [] ('^' :: '(' :: (n ++ [')']) ++ t) =
      '^' :: '(' :: (n ++ [')']) ++ replaceGlyphs [] t :=
    append_of_forall_cons fun c hc t ↦ replaceGlyphs_cons (hplain c hc).1 (hplain c hc).2
  rw [normalizeChars, trim_append (List.cons_ne_nil _ _) hblank, replaceAliases_append (List.cons_ne_nil _ _) haliases,
    replaceGlyphs_append (by rintro c ⟨rfl⟩; decide), hglyphs, ← join, List.cons_append,
    join_append_caret (List.cons_ne_nil _ _) hneutral]
  rfl

/-! ## What follows -/

/-- No number goes on here: a blank comes first, or the plain notation begins with no digit, point or exponent
mark that belongs to a number. -/
def EndsNumber (t : List Char) : Prop :=
  (∃ c ∈ t.head?, isBlank c = true) ∨ (Token.takeNumber false (normalizeChars t)).1 = []

theorem isBlank_of_glyph? {c : Char} {cs : List Char} (h : glyph? c = some cs) : isBlank c = false := by
  unfold glyph? at h
  split at h <;> cases h <;> decide

/-- A blank stays as it is. -/
theorem transcribe_cons_of_isBlank {c : Char} (hc : isBlank c = true) (t : List Char) :
    ∃ r, transcribe (c :: t) = c :: r := by
  have haliases : Unaliased c := by
    have names : ∀ p ∈ aliases, p.1.all (!isBlank ·) = true := by decide
    intro p hp hmem
    have hname := List.all_eq_true.mp (names p hp) c hmem
    rw [hc] at hname
    cases hname
  have hsuperscript : superscript? c = none := by
    refine Option.eq_none_iff_forall_ne_some.mpr fun d hd ↦ ?_
    rw [(unaliased_of_superscript? hd).1] at hc
    cases hc
  have hglyph : glyph? c = none := by
    refine Option.eq_none_iff_forall_ne_some.mpr fun cs hcs ↦ ?_
    rw [isBlank_of_glyph? hcs] at hc
    cases hc
  rw [transcribe, replaceAliases_cons haliases, replaceGlyphs_cons hsuperscript hglyph, join,
    joinSubscripts_cons_of_not_joins fun h ↦ Bool.false_ne_true h.2.1,
    joinSuperscripts_cons_of_not_joins fun h ↦ h.2.1 rfl]
  exact ⟨_, rfl⟩

theorem EndsNumber.takeNumber_transcribe (h : EndsNumber t) :
    Token.takeNumber false (transcribe (trimEnd t)) = ([], transcribe (trimEnd t)) := by
  -- trimming would take a blank at the front, but here text stands before it
  by_cases hblank : ∃ c ∈ t.head?, isBlank c = true
  · obtain ⟨c, hc, hblank⟩ := hblank
    cases ht : trimEnd t with
    | nil =>
        have hnil : transcribe [] = [] := normalizeChars_nil
        rw [hnil]
        rfl
    | cons d r =>
        have hd : d ∈ t.head? := mem_head?_of_isPrefix (trimEnd_isPrefix t) (by simp [ht])
        obtain rfl : d = c := Option.mem_unique hd hc
        obtain ⟨r, hr⟩ := transcribe_cons_of_isBlank hblank r
        rw [hr, Token.takeNumber_of_isBlank hblank]
  · have hnext := h.resolve_left hblank
    rw [normalizeChars, trim_eq_trimEnd fun c hc ↦ by simpa using fun hb ↦ hblank ⟨c, hc, hb⟩] at hnext
    exact Token.takeNumber_eq_iff.mpr hnext

open FormulaNet.Expr (Writes parse)

variable {ν : Type} [Scalar ν]

/-- **A superscript exponent is its own run.**  Superscripts between two texts are read as the same integer in brackets
after a caret: both texts write the same expression, or neither writes one.  A single digit is not to be
followed by what goes on with a number. -/
theorem parse_normalize_superscripts (v : Vocabulary) {s n a b : String} (hs : RaisedInteger s.toList n.toList)
    (ha : ∀ c ∈ a.toList.getLast?, superscript? c = none) (hb : ∀ c ∈ b.toList.head?, superscript? c = none)
    (hend : s.length = 1 → EndsNumber b.toList) (e : Expr ν) :
    parse v (normalize (a ++ s ++ b)) = .ok e ↔ parse v (normalize (a ++ "^(" ++ n ++ ")" ++ b)) = .ok e := by
  have hraised := normalizeChars_superscripts hs ha hb
  have hbrackets := normalizeChars_brackets (a := a.toList) (b := b.toList) hs
  have htexts : normalize (a ++ s ++ b) = String.ofList (normalizeChars (a.toList ++ (s.toList ++ b.toList))) ∧
      normalize (a ++ "^(" ++ n ++ ")" ++ b) =
        String.ofList (normalizeChars (a.toList ++ ('^' :: '(' :: (n.toList ++ [')']) ++ b.toList))) := by
    simp [normalize]
  rw [htexts.1, htexts.2, hraised, hbrackets]
  cases hn : n.toList with
  | nil => exact absurd hn hs.ne_nil
  | cons d cs =>
      cases cs with
      | nil =>
          -- one character: it is a digit, and stands without brackets
          have hlength : s.length = 1 := by
            rw [← String.length_toList, hs.length_eq, hn]
            rfl
          have hdigits : Numeral.isDigits [d] = true := by
            rcases hn ▸ hs.integer with h | ⟨ds, h, hds⟩
            · exact h
            · rw [← (List.cons.inj h).2] at hds
              cases hds
          have hexponent := Expr.parse_exponent_brackets (v := v) (e := e) (transcribe (trimStart a.toList)) hdigits
            (hend hlength).takeNumber_transcribe
          simpa [power] using hexponent
      | cons d' cs => simp [power]

/-- A square before a quotient, read as the square with its exponent in brackets. -/
theorem parse_normalize_superscripts_quotient :
    RaisedInteger "²".toList "2".toList ∧ EndsNumber "/r".toList ∧
      parse (.ofList ["v", "r"]) (normalize "v²/r") =
        .ok (.bin .div (.bin .pow (.sym "v") (.num 2)) (.sym "r") : Expr ℚ) := by
  have hs : RaisedInteger "²".toList "2".toList := ⟨by decide, .inl rfl⟩
  have hend : EndsNumber "/r".toList := .inr (by decide +kernel)
  have hiff := parse_normalize_superscripts (ν := ℚ) (.ofList ["v", "r"]) (a := "v") (b := "/r") hs
    (by rintro c ⟨rfl⟩; decide) (by rintro c ⟨rfl⟩; decide) fun _ ↦ hend
  refine ⟨hs, hend, (hiff _).mpr ?_⟩
  have htokens : Token.tokenize (.ofList ["v", "r"]) (normalize ("v" ++ "^(" ++ "2" ++ ")" ++ "/r")) =
      .ok ([⟨.identifier, 0, 1, "v"⟩, ⟨.caret, 1, 2, "^"⟩, ⟨.openBracket, 2, 3, "("⟩, ⟨.number, 3, 4, "2"⟩,
        ⟨.closeBracket, 4, 5, ")"⟩, ⟨.slash, 5, 6, "/"⟩, ⟨.identifier, 6, 7, "r"⟩] ++ [⟨.stop, 7, 7, ""⟩]) :=
    eq_ok_of_toOption (by decide +kernel)
  refine Expr.parse_of_writes htokens rfl (by decide) ?_
  have htwo : Writes .operand [⟨.number, 3, 4, "2"⟩] (.num 2 : Expr ℚ) := .number rfl (by decide +kernel)
  have hexponent : Writes .operand [⟨.openBracket, 2, 3, "("⟩, ⟨.number, 3, 4, "2"⟩, ⟨.closeBracket, 4, 5, ")"⟩]
      (.num 2 : Expr ℚ) := .brackets rfl (.product (.signed (.power (.operand htwo)))) rfl
  have hsquare : Writes .power [⟨.identifier, 0, 1, "v"⟩, ⟨.caret, 1, 2, "^"⟩, ⟨.openBracket, 2, 3, "("⟩,
      ⟨.number, 3, 4, "2"⟩, ⟨.closeBracket, 4, 5, ")"⟩] (.bin .pow (.sym "v") (.num 2) : Expr ℚ) :=
    .raised (.symbol rfl (by decide)) rfl (.power (.operand hexponent))
  exact .product (.factor (.signed (.power hsquare)) rfl (.power (.operand (.symbol rfl (by decide)))))

/-- A digit after a superscript digit becomes part of the exponent; after the same exponent in brackets it is a
factor. -/
theorem parse_normalize_superscripts_ne : RaisedInteger "²".toList "2".toList ∧
    parse (.ofList ["x"]) (normalize "x²3") = .ok (.bin .pow (.sym "x") (.num 23) : Expr ℚ) ∧
    parse (.ofList ["x"]) (normalize "x^(2)3") =
      .ok (.bin .mul (.bin .pow (.sym "x") (.num 2)) (.num 3) : Expr ℚ) := by
  have hx : Writes .operand [⟨.identifier, 0, 1, "x"⟩] (.sym "x" : Expr ℚ) := .symbol rfl (by decide)
  refine ⟨⟨by decide, .inl rfl⟩, ?merged, ?separate⟩
  case merged =>
    have htokens : Token.tokenize (.ofList ["x"]) (normalize "x²3") =
        .ok ([⟨.identifier, 0, 1, "x"⟩, ⟨.caret, 1, 2, "^"⟩, ⟨.number, 2, 4, "23"⟩] ++ [⟨.stop, 4, 4, ""⟩]) :=
      eq_ok_of_toOption (by decide +kernel)
    have hnumber : Writes .operand [⟨.number, 2, 4, "23"⟩] (.num 23 : Expr ℚ) := .number rfl (by decide +kernel)
    refine Expr.parse_of_writes htokens rfl (by decide) ?_
    exact .product (.signed (.power (.raised hx rfl (.power (.operand hnumber)))))
  case separate =>
    have htokens : Token.tokenize (.ofList ["x"]) (normalize "x^(2)3") =
        .ok ([⟨.identifier, 0, 1, "x"⟩, ⟨.caret, 1, 2, "^"⟩, ⟨.openBracket, 2, 3, "("⟩, ⟨.number, 3, 4, "2"⟩,
          ⟨.closeBracket, 4, 5, ")"⟩, ⟨.star, 5, 6, "*"⟩, ⟨.number, 5, 6, "3"⟩] ++ [⟨.stop, 6, 6, ""⟩]) :=
      eq_ok_of_toOption (by decide +kernel)
    have htwo : Writes .operand [⟨.number, 3, 4, "2"⟩] (.num 2 : Expr ℚ) := .number rfl (by decide +kernel)
    have hthree : Writes .operand [⟨.number, 5, 6, "3"⟩] (.num 3 : Expr ℚ) := .number rfl (by decide +kernel)
    have hexponent : Writes .operand [⟨.openBracket, 2, 3, "("⟩, ⟨.number, 3, 4, "2"⟩, ⟨.closeBracket, 4, 5, ")"⟩]
        (.num 2 : Expr ℚ) := .brackets rfl (.product (.signed (.power (.operand htwo)))) rfl
    have hsquare : Writes .power [⟨.identifier, 0, 1, "x"⟩, ⟨.caret, 1, 2, "^"⟩, ⟨.openBracket, 2, 3, "("⟩,
        ⟨.number, 3, 4, "2"⟩, ⟨.closeBracket, 4, 5, ")"⟩] (.bin .pow (.sym "x") (.num 2) : Expr ℚ) :=
      .raised hx rfl (.power (.operand hexponent))
    refine Expr.parse_of_writes htokens rfl (by decide) ?_
    exact .product (.factor (.signed (.power hsquare)) rfl (.power (.operand hthree)))

end Notation

end FormulaNet

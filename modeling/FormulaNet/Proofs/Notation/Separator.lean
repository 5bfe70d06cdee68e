import FormulaNet.Notation
import Mathlib.Data.List.TakeWhile
import Mathlib.Tactic.Common

/-!
# Notation across separators

A pass over a text looks at neighbouring characters, at the letters directly before, or for one of a few
spellings.  Where a character stands that is no part of any of these, the pass works on what is before it and on
what is after it separately.  A delimiter is such a character for every pass, so a symbol has the same plain
notation alone and between the delimiters of a formula.
-/

namespace FormulaNet

variable {x : Char} {a b : List Char}

/-! ## Blanks and replacements -/

namespace Text

theorem trimStart_append_cons (hx : isBlank x = false) : trimStart (a ++ x :: b) = trimStart a ++ x :: b := by
  rw [trimStart, trimStart, List.dropWhile_append, List.dropWhile_cons_of_neg (by simp [hx])]
  split
  · next h => rw [List.isEmpty_iff.mp h, List.nil_append]
  · rfl

theorem trimEnd_append_cons (hx : isBlank x = false) : trimEnd (a ++ x :: b) = a ++ x :: trimEnd b := by
  have h : (b.reverse ++ x :: a.reverse).dropWhile isBlank = b.reverse.dropWhile isBlank ++ x :: a.reverse :=
    trimStart_append_cons hx
  rw [trimEnd, trimEnd, List.reverse_append, List.reverse_cons, List.append_assoc, List.singleton_append, h]
  simp

theorem trim_append_cons (hx : isBlank x = false) : trim (a ++ x :: b) = trimStart a ++ x :: trimEnd b := by
  rw [trim, trimStart_append_cons hx, trimEnd_append_cons hx]

theorem trimStart_eq_self (h : ∀ c ∈ a.head?, isBlank c = false) : trimStart a = a := by
  cases a with
  | nil => rfl
  | cons c a => exact List.dropWhile_cons_of_neg (by simp [h c rfl])

theorem trimEnd_eq_self (h : ∀ c ∈ a.getLast?, isBlank c = false) : trimEnd a = a := by
  have hreverse : a.reverse.dropWhile isBlank = a.reverse := trimStart_eq_self (by simpa using h)
  rw [trimEnd, hreverse, List.reverse_reverse]

theorem trim_eq_trimEnd (h : ∀ c ∈ a.head?, isBlank c = false) : trim a = trimEnd a := by
  rw [trim, trimStart_eq_self h]

theorem mem_head?_of_isPrefix {c : Char} (h : a <+: b) (hc : c ∈ a.head?) : c ∈ b.head? :=
  List.singleton_prefix_iff_head?_eq_some.mp ((List.singleton_prefix_iff_head?_eq_some.mpr hc).trans h)

theorem mem_getLast?_of_isSuffix {c : Char} (h : a <:+ b) (hc : c ∈ a.getLast?) : c ∈ b.getLast? :=
  List.singleton_suffix_iff_getLast?_eq_some.mp ((List.singleton_suffix_iff_getLast?_eq_some.mpr hc).trans h)

theorem trimStart_isSuffix (a : List Char) : trimStart a <:+ a := List.dropWhile_suffix isBlank

theorem trimEnd_isPrefix (a : List Char) : trimEnd a <+: a := by
  rw [← List.reverse_suffix, trimEnd, List.reverse_reverse]
  exact List.dropWhile_suffix isBlank

theorem trim_eq_trimStart (h : ∀ c ∈ a.getLast?, isBlank c = false) : trim a = trimStart a :=
  trimEnd_eq_self fun c hc ↦ h c (mem_getLast?_of_isSuffix (trimStart_isSuffix a) hc)

variable {old new : List Char}

theorem replaceAll_of_isPrefix {c : Char} {cs : List Char} (h : old <+: c :: cs) :
    replaceAll old new (c :: cs) = new ++ replaceAll old new (cs.drop (old.length - 1)) := by
  rw [replaceAll, if_pos (List.isPrefixOf_iff_prefix.mpr h)]

theorem replaceAll_of_not_isPrefix {c : Char} {cs : List Char} (h : ¬old <+: c :: cs) :
    replaceAll old new (c :: cs) = c :: replaceAll old new cs := by
  rw [replaceAll, if_neg (mt List.isPrefixOf_iff_prefix.mp h)]

/-- A spelling does not begin before a character that is not in it and end after it. -/
theorem prefix_append_cons_iff (hx : x ∉ old) : old <+: a ++ x :: b ↔ old <+: a := by
  constructor
  · intro h
    rcases List.prefix_or_prefix_of_prefix h (List.prefix_append a (x :: b)) with h' | h'
    · exact h'
    · obtain ⟨t, rfl⟩ := h'
      cases t with
      | nil => simp
      | cons y t =>
          obtain ⟨rfl, -⟩ := List.cons_prefix_cons.mp ((List.prefix_append_right_inj a).mp h)
          simp at hx
  · exact fun h ↦ h.trans (List.prefix_append _ _)

theorem replaceAll_append_cons (hold : old ≠ []) (hx : x ∉ old) :
    replaceAll old new (a ++ x :: b) = replaceAll old new a ++ x :: replaceAll old new b := by
  fun_induction replaceAll old new a with
  | case1 =>
      have hno : ¬old <+: [] ++ x :: b := by
        rw [prefix_append_cons_iff hx, List.prefix_nil]
        exact hold
      exact replaceAll_of_not_isPrefix hno
  | case2 c cs h ih =>
      have hprefix := List.isPrefixOf_iff_prefix.mp h
      have hlength : old.length - 1 ≤ cs.length := by
        have := hprefix.length_le
        simp only [List.length_cons] at this
        omega
      have hlonger : old <+: c :: (cs ++ x :: b) := hprefix.trans (List.prefix_append (c :: cs) _)
      rw [List.cons_append, replaceAll_of_isPrefix hlonger, List.drop_append_of_le_length hlength, ih,
        List.append_assoc]
  | case3 c cs h ih =>
      have hno : ¬old <+: c :: (cs ++ x :: b) := by
        rw [← List.cons_append, prefix_append_cons_iff hx]
        exact mt List.isPrefixOf_iff_prefix.mpr h
      rw [List.cons_append, replaceAll_of_not_isPrefix hno, ih, List.cons_append]

end Text

/-! ## The passes of notation -/

namespace Notation

open Text

/-- A character in none of the spellings that aliases have. -/
def Unaliased (x : Char) : Prop := ∀ p ∈ aliases, x ∉ p.1

instance (x : Char) : Decidable (Unaliased x) := inferInstanceAs (Decidable (∀ p ∈ aliases, x ∉ p.1))

theorem ne_nil_of_mem_aliases : ∀ p ∈ aliases, p.1 ≠ [] := by decide

theorem replaceAliases_append_cons (hx : Unaliased x) :
    replaceAliases (a ++ x :: b) = replaceAliases a ++ x :: replaceAliases b := by
  -- each rule replaces in the texts that the rules before it have left, so these are generalized
  have rounds : ∀ (rules : List (List Char × List Char)) (a b : List Char),
      (∀ p ∈ rules, p.1 ≠ [] ∧ x ∉ p.1) →
      rules.foldl (fun cs p ↦ replaceAll p.1 p.2 cs) (a ++ x :: b) =
        rules.foldl (fun cs p ↦ replaceAll p.1 p.2 cs) a ++
          x :: rules.foldl (fun cs p ↦ replaceAll p.1 p.2 cs) b := by
    intro rules
    induction rules with
    | nil => exact fun _ _ _ ↦ rfl
    | cons p rules ih =>
        intro a b h
        obtain ⟨⟨hne, hp⟩, hrules⟩ := List.forall_mem_cons.mp h
        rw [List.foldl_cons, replaceAll_append_cons hne hp]
        exact ih _ _ hrules
  exact rounds aliases a b fun p hp ↦ ⟨ne_nil_of_mem_aliases p hp, hx p hp⟩

/-- A run of superscripts ends before a character that is none. -/
theorem replaceGlyphs_append {run : List Char} (hb : ∀ c ∈ b.head?, superscript? c = none) :
    replaceGlyphs run (a ++ b) = replaceGlyphs run a ++ replaceGlyphs [] b := by
  induction a generalizing run with
  | nil =>
      cases b with
      | nil => simp [replaceGlyphs, power]
      | cons c b => simp [replaceGlyphs, hb c rfl, power]
  | cons c a ih =>
      rw [List.cons_append, replaceGlyphs.eq_def run (c :: (a ++ b)), replaceGlyphs.eq_def run (c :: a)]
      dsimp only
      split
      · exact ih
      · rw [ih, List.append_assoc, List.append_assoc]

theorem replaceGlyphs_cons (hs : superscript? x = none) (hg : glyph? x = none) :
    replaceGlyphs [] (x :: b) = x :: replaceGlyphs [] b := by
  simp [replaceGlyphs, hs, hg, power]

theorem goesOn_append_cons {class_ : Char → Bool} (hx : class_ x = false) :
    goesOn class_ (a ++ x :: b) = goesOn class_ a := by
  cases a with
  | nil => exact hx
  | cons c a => rfl

/-- An underscore that marks a subscript: between a letter and a letter or number. -/
def JoinsUnderscore (afterLetter : Bool) (x : Char) (b : List Char) : Prop :=
  x = '_' ∧ afterLetter = true ∧ goesOn isAlphanumeric b = true

theorem joinSubscripts_cons_of_joins {afterLetter : Bool} (h : JoinsUnderscore afterLetter x b) :
    joinSubscripts afterLetter (x :: b) = joinSubscripts false b := if_pos h

theorem joinSubscripts_cons_of_not_joins {afterLetter : Bool} (h : ¬JoinsUnderscore afterLetter x b) :
    joinSubscripts afterLetter (x :: b) = x :: joinSubscripts (isAlphabetic x) b := if_neg h

theorem joinSubscripts_append_cons {afterLetter : Bool} (hx : isAlphanumeric x = false) (hmark : x ≠ '_') :
    joinSubscripts afterLetter (a ++ x :: b) = joinSubscripts afterLetter a ++ x :: joinSubscripts false b := by
  induction a generalizing afterLetter with
  | nil =>
      have hletter : isAlphabetic x = false := (Bool.or_eq_false_iff.mp hx).1
      rw [List.nil_append, joinSubscripts_cons_of_not_joins (hmark ·.1), hletter]
      rfl
  | cons c a ih =>
      have hiff : JoinsUnderscore afterLetter c (a ++ x :: b) ↔ JoinsUnderscore afterLetter c a := by
        rw [JoinsUnderscore, goesOn_append_cons hx, JoinsUnderscore]
      by_cases h : JoinsUnderscore afterLetter c a
      · rw [List.cons_append, joinSubscripts_cons_of_joins (hiff.mpr h), joinSubscripts_cons_of_joins h, ih]
      · rw [List.cons_append, joinSubscripts_cons_of_not_joins (mt hiff.mp h),
          joinSubscripts_cons_of_not_joins h, ih, List.cons_append]

/-- A caret that is part of a symbol: between letters, and not after `pi`. -/
def JoinsCaret (letters : List Char) (x : Char) (b : List Char) : Prop :=
  x = '^' ∧ letters ≠ [] ∧ goesOn Char.isAlpha b = true ∧ letters ≠ ['i', 'p']

theorem joinSuperscripts_cons_of_joins {letters : List Char} (h : JoinsCaret letters x b) :
    joinSuperscripts letters (x :: b) = joinSuperscripts [] b := if_pos h

theorem joinSuperscripts_cons_of_not_joins {letters : List Char} (h : ¬JoinsCaret letters x b) :
    joinSuperscripts letters (x :: b) =
      x :: joinSuperscripts (if x.isAlpha then x :: letters else []) b := if_neg h

/-- Letters on both sides of a caret are looked for, so one may stand here if no letter comes after it. -/
theorem joinSuperscripts_append_cons {letters : List Char} (hx : x.isAlpha = false)
    (hcaret : x = '^' → goesOn Char.isAlpha b = false) :
    joinSuperscripts letters (a ++ x :: b) = joinSuperscripts letters a ++ x :: joinSuperscripts [] b := by
  induction a generalizing letters with
  | nil =>
      have hkeep : ¬JoinsCaret letters x b := by
        rintro ⟨rfl, -, hletter, -⟩
        rw [hcaret rfl] at hletter
        cases hletter
      rw [List.nil_append, joinSuperscripts_cons_of_not_joins hkeep, hx]
      rfl
  | cons c a ih =>
      have hiff : JoinsCaret letters c (a ++ x :: b) ↔ JoinsCaret letters c a := by
        rw [JoinsCaret, goesOn_append_cons hx, JoinsCaret]
      by_cases h : JoinsCaret letters c a
      · rw [List.cons_append, joinSuperscripts_cons_of_joins (hiff.mpr h),
          joinSuperscripts_cons_of_joins h, ih]
      · rw [List.cons_append, joinSuperscripts_cons_of_not_joins (mt hiff.mp h),
          joinSuperscripts_cons_of_not_joins h, ih, List.cons_append]

/-! ## Delimiters -/

/-- A character that no pass changes and none looks across. -/
structure Separator (x : Char) : Prop where
  isBlank : isBlank x = false
  unaliased : Unaliased x
  superscript? : superscript? x = none
  glyph? : glyph? x = none
  isAlphanumeric : isAlphanumeric x = false
  isAlpha : x.isAlpha = false
  ne_underscore : x ≠ '_'
  ne_caret : x ≠ '^'

theorem Separator.normalizeChars_append_cons (h : Separator x) (ha : ∀ c ∈ a.getLast?, Text.isBlank c = false)
    (hb : ∀ c ∈ b.head?, Text.isBlank c = false) :
    normalizeChars (a ++ x :: b) = normalizeChars a ++ x :: normalizeChars b := by
  rw [normalizeChars, trim_append_cons h.isBlank, replaceAliases_append_cons h.unaliased,
    replaceGlyphs_append (by simp [h.superscript?]), replaceGlyphs_cons h.superscript? h.glyph?,
    joinSubscripts_append_cons h.isAlphanumeric h.ne_underscore,
    joinSuperscripts_append_cons h.isAlpha (absurd · h.ne_caret), ← trim_eq_trimStart ha,
    ← trim_eq_trimEnd hb, ← normalizeChars, ← normalizeChars]

/-- The signs of arithmetic and equality, the brackets, and the comma. -/
def delimiters : List Char := ['+', '-', '*', '/', '(', ')', '=', ',']

theorem separator_of_mem_delimiters (h : x ∈ delimiters) : Separator x := by
  simp only [delimiters, List.mem_cons, List.not_mem_nil, or_false] at h
  rcases h with rfl | rfl | rfl | rfl | rfl | rfl | rfl | rfl <;>
    exact ⟨by decide, by decide, by decide, by decide, by decide, by decide, by decide, by decide⟩

theorem normalize_append {d : Char} (hd : d ∈ delimiters) {s t : String}
    (hs : ∀ c ∈ s.toList.getLast?, isBlank c = false) (ht : ∀ c ∈ t.toList.head?, isBlank c = false) :
    normalize (s ++ d.toString ++ t) = normalize s ++ d.toString ++ normalize t := by
  have hchars := (separator_of_mem_delimiters hd).normalizeChars_append_cons hs ht
  rw [← String.toList_inj]
  simpa using hchars

/-- **Notation stops at delimiters.**  Where no blank stands beside a delimiter, the plain notation of a text is
that of what is before it and that of what is after it; so what stands between two delimiters has the same
notation as alone. -/
theorem normalize_between {d : Char} (hd : d ∈ delimiters) {s t : String}
    (hs : ∀ c ∈ s.toList.getLast?, isBlank c = false) (ht : ∀ c ∈ t.toList.head?, isBlank c = false) :
    normalize (s ++ d.toString ++ t) = normalize s ++ d.toString ++ normalize t ∧
      ∀ e ∈ delimiters, ∀ u : String, (∀ c ∈ t.toList.getLast?, isBlank c = false) →
        (∀ c ∈ u.toList.head?, isBlank c = false) →
        normalize (s ++ d.toString ++ t ++ e.toString ++ u) =
          normalize s ++ d.toString ++ normalize t ++ e.toString ++ normalize u := by
  refine ⟨normalize_append hd hs ht, fun e he u ht' hu ↦ ?_⟩
  have hlast : ∀ c ∈ (s ++ d.toString ++ t).toList.getLast?, isBlank c = false := by
    have heq : (s ++ d.toString ++ t).toList.getLast? = some (t.toList.getLast?.getD d) := by
      simp [List.getLast?_cons]
    rw [heq]
    rintro c ⟨rfl⟩
    cases h : t.toList.getLast? with
    | none => exact (separator_of_mem_delimiters hd).isBlank
    | some c => exact ht' c h
  rw [normalize_append he hlast hu, normalize_append hd hs ht]

/-- Three symbols of a formula, each in the notation that it has alone. -/
theorem normalize_between_force :
    normalize "F_net=m_1*v₀²" = normalize "F_net" ++ "=" ++ normalize "m_1" ++ "*" ++ normalize "v₀²" ∧
      normalize "F_net" = "F" ∧ normalize "m_1" = "m1" ∧ normalize "v₀²" = "v0^2" := by
  have hparts := normalize_between (d := '=') (by decide) (s := "F_net") (t := "m_1") (by rintro c ⟨rfl⟩; decide)
    (by rintro c ⟨rfl⟩; decide)
  exact ⟨hparts.2 '*' (by decide) "v₀²" (by rintro c ⟨rfl⟩; decide) (by rintro c ⟨rfl⟩; decide),
    by decide +kernel, by decide +kernel, by decide +kernel⟩

end Notation

end FormulaNet

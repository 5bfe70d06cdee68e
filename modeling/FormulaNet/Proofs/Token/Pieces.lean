import FormulaNet.Proofs.Token.Lexer

/-!
# Splitting a word after its first piece

A word that is not known is split at the longest known word at its front, and what follows is split in the same way:
it need not be known as a whole for that.  So what follows is split as if it stood alone, but for one word: `log10`,
which is known as a whole, is not among those that a longer word is split at.
-/

namespace FormulaNet

/-! ## Known words -/

namespace Vocabulary

variable {v : Vocabulary} {u w x : String} {cs : List Char}

theorem exists_longestWord (hx : x ∈ v.words) (hfront : x.toList <+: cs) :
    ∃ u ∈ v.words, u.toList <+: cs ∧ v.longestWord cs = u.length ∧
      ∀ y ∈ v.words, y.toList <+: cs → y.length ≤ u.length := by
  have hmem : ∀ y, y ∈ v.words ∧ y.toList <+: cs ↔ y ∈ v.words.filter (·.toList.isPrefixOf cs) := fun y ↦ by
    rw [List.mem_filter, List.isPrefixOf_iff_prefix]
  cases hmax : ((v.words.filter (·.toList.isPrefixOf cs)).map String.length).max? with
  | none =>
      rw [List.max?_eq_none_iff, List.map_eq_nil_iff] at hmax
      have hx := (hmem x).mp ⟨hx, hfront⟩
      rw [hmax] at hx
      cases hx
  | some n =>
      obtain ⟨hn, hle⟩ := List.max?_eq_some_iff.mp hmax
      obtain ⟨u, hu, rfl⟩ := List.mem_map.mp hn
      obtain ⟨hword, hfront⟩ := (hmem u).mpr hu
      refine ⟨u, hword, hfront, ?_, fun y hy hys ↦ hle _ (List.mem_map_of_mem ((hmem y).mp ⟨hy, hys⟩))⟩
      rw [longestWord, List.foldl_max, hmax]
      exact Nat.max_eq_right (Nat.zero_le _)

theorem ne_empty_of_mem_words (h : u ∈ v.words) : u ≠ "" := by
  rintro rfl
  rcases List.mem_append.mp h with h | h
  · exact v.empty_notMem h
  · exact absurd h (by decide)

/-- All known words but `log10` may stand at the front of longer ones. -/
theorem contains_iff : v.contains w = true ↔ w ∈ v.words ∨ w = "log10" := by
  have hnames : (Function.ofName? w).isSome = true ↔ w ∈ Function.all.map Function.name ∨ w = "log10" := by
    unfold Function.ofName?
    split
    · next h => simp [h]
    · next h => simp [h, List.find?_isSome]
  simp only [contains, words, Bool.or_eq_true, List.contains_iff_mem, decide_eq_true_iff, hnames, List.mem_append,
    List.mem_cons, or_assoc]

theorem log10_mem_words_iff : "log10" ∈ v.words ↔ "log10" ∈ v.symbols := by
  rw [words, List.mem_append]
  exact or_iff_left (by decide)

end Vocabulary

namespace Token

open Text

variable {v : Vocabulary} {p q : Nat} {u w : String} {cs ds : List Char}

/-! ## The first piece -/

/-- The longest known word at the front is the first piece. -/
theorem pieces_append (hu : u ∈ v.words)
    (hlongest : ∀ x ∈ v.words, x.toList <+: u.toList ++ cs → x.length ≤ u.length) :
    pieces v p (u.toList ++ cs) = ⟨.identifier, p, p + utf8Length u.toList, u⟩ ::
      pieces v (p + utf8Length u.toList) cs := by
  obtain ⟨u', hu', hfront, hlongest', hle⟩ := Vocabulary.exists_longestWord hu (List.prefix_append u.toList cs)
  have hlength : v.longestWord (u.toList ++ cs) = u.length :=
    hlongest'.trans (Nat.le_antisymm (hlongest u' hu' hfront) (hle u hu (List.prefix_append _ _)))
  obtain ⟨c, ds, hcs⟩ : ∃ c ds, u.toList = c :: ds :=
    List.exists_cons_of_ne_nil fun h ↦ Vocabulary.ne_empty_of_mem_words hu (String.toList_eq_nil_iff.mp h)
  have hpiece : firstPiece v c (ds ++ cs) = (.identifier, ds.length) := by
    have hlength' : v.longestWord (c :: (ds ++ cs)) = ds.length + 1 := by
      rw [← List.cons_append, ← hcs, hlength, ← String.length_toList, hcs, List.length_cons]
    rw [firstPiece, hlength']
  rw [hcs, List.cons_append, pieces, hpiece]
  simp only [List.take_left, List.drop_left]
  rw [← hcs, String.ofList_toList]

theorem pieces_of_mem_words (hw : w ∈ v.words) :
    pieces v p w.toList = [⟨.identifier, p, p + utf8Length w.toList, w⟩] := by
  have hlongest : ∀ x ∈ v.words, x.toList <+: w.toList ++ [] → x.length ≤ w.length := by
    intro x _ hx
    rw [List.append_nil] at hx
    rw [← String.length_toList, ← String.length_toList]
    exact hx.length_le
  have hpieces := pieces_append (p := p) hw hlongest
  rwa [List.append_nil, pieces] at hpieces

/-- The first piece of `log10` is `log`, or a longer word that the vocabulary has. -/
theorem splitWord_log10_ne (h : "log10" ∉ v.words) :
    splitWord v ⟨.identifier, p, q, "log10"⟩ ≠ [⟨.identifier, p, q, "log10"⟩] := by
  have hlog : "log" ∈ v.words := List.mem_append_right _ (by decide)
  have hfront : "log".toList <+: "log10".toList := ⟨['1', '0'], by simp⟩
  obtain ⟨u, hu, ⟨cs, hcs⟩, -, hle⟩ := Vocabulary.exists_longestWord hlog hfront
  have hpieces := pieces_append (p := p) hu fun x hx hfront ↦ hle x hx (hcs ▸ hfront)
  rw [splitWord, ← hcs, hpieces]
  intro heq
  have htext : u = "log10" := (Token.mk.inj (List.cons.inj heq).1).2.2.2
  exact h (htext ▸ hu)

/-! ## The rest -/

/-- A sign comes before every piece but the first. -/
theorem splitWord_of_pieces {t first : Token} (hfirst : pieces v t.start t.text.toList = first :: pieces v q w.toList)
    (hw : w ≠ "") (r : Nat) : splitWord v t = first :: times q :: splitWord v ⟨.identifier, q, r, w⟩ := by
  obtain ⟨c, cs, hcs⟩ := List.exists_cons_of_ne_nil fun h ↦ hw (String.toList_eq_nil_iff.mp h)
  obtain ⟨second, others, hsecond, hstart⟩ : ∃ second others,
      pieces v q w.toList = second :: others ∧ second.start = q := by
    rw [hcs, pieces]
    exact ⟨_, _, rfl, rfl⟩
  rw [splitWord, splitWord, hfirst, hsecond]
  simp [hstart]

/-- **What follows the first piece of a word is split as if it stood alone**, unless it is the one name of a function
that no longer word is split at. -/
theorem splitWords_append_iff (hu : u ∈ v.words)
    (hlongest : ∀ x ∈ v.words, x.toList <+: (u ++ w).toList → x.length ≤ u.length)
    (hunknown : v.contains (u ++ w) = false) (p : Nat) :
    let q := p + utf8Length u.toList
    let r := q + utf8Length w.toList
    splitWords v [⟨.identifier, p, r, u ++ w⟩] =
        ⟨.identifier, p, q, u⟩ :: times q :: splitWords v [⟨.identifier, q, r, w⟩] ↔
      (w = "log10" → "log10" ∈ v.symbols) := by
  intro q r
  have hne : w ≠ "" := by
    rintro rfl
    rw [String.append_empty, Vocabulary.contains_iff.mpr (.inl hu)] at hunknown
    cases hunknown
  have hpieces : pieces v p (u ++ w).toList = ⟨.identifier, p, q, u⟩ :: pieces v q w.toList := by
    rw [String.toList_append] at hlongest ⊢
    exact pieces_append hu hlongest
  have hsplit : splitWords v [⟨.identifier, p, r, u ++ w⟩] =
      ⟨.identifier, p, q, u⟩ :: times q :: splitWord v ⟨.identifier, q, r, w⟩ := by
    rw [← splitWord_of_pieces (t := ⟨.identifier, p, r, u ++ w⟩) hpieces hne r]
    simp [splitWords, hunknown]
  rw [hsplit, List.cons.injEq, List.cons.injEq, ← Vocabulary.log10_mem_words_iff]
  simp only [true_and]
  by_cases hknown : v.contains w = true
  · have halone : splitWords v [⟨.identifier, q, r, w⟩] = [⟨.identifier, q, r, w⟩] := by
      simp [splitWords, hknown]
    rw [halone]
    by_cases hword : w ∈ v.words
    · have hwhole : splitWord v ⟨.identifier, q, r, w⟩ = [⟨.identifier, q, r, w⟩] := by
        rw [splitWord, pieces_of_mem_words hword]
        rfl
      exact iff_of_true hwhole fun h ↦ h ▸ hword
    · obtain rfl := (Vocabulary.contains_iff.mp hknown).resolve_left hword
      exact iff_of_false (splitWord_log10_ne hword) fun h ↦ hword (h rfl)
  · have halone : splitWords v [⟨.identifier, q, r, w⟩] = splitWord v ⟨.identifier, q, r, w⟩ := by
      simp [splitWords, hknown]
    exact iff_of_true halone.symm fun h ↦ absurd (Vocabulary.contains_iff.mpr (.inr h)) hknown

/-- A symbol of two characters before a call by name. -/
theorem splitWords_append_iff_speed :
    "v0" ∈ (Vocabulary.ofList ["v", "v0"]).words ∧
      (∀ x ∈ (Vocabulary.ofList ["v", "v0"]).words, x.toList <+: ("v0" ++ "sin").toList → x.length ≤ "v0".length) ∧
      (Vocabulary.ofList ["v", "v0"]).contains ("v0" ++ "sin") = false ∧
      splitWords (.ofList ["v", "v0"]) [⟨.identifier, 3, 8, "v0sin"⟩] =
        [⟨.identifier, 3, 5, "v0"⟩, times 5, ⟨.identifier, 5, 8, "sin"⟩] := by
  have hword : "v0" ∈ (Vocabulary.ofList ["v", "v0"]).words := by decide +kernel
  have hlongest : ∀ x ∈ (Vocabulary.ofList ["v", "v0"]).words,
      x.toList <+: ("v0" ++ "sin").toList → x.length ≤ "v0".length := by decide +kernel
  have hunknown : (Vocabulary.ofList ["v", "v0"]).contains ("v0" ++ "sin") = false := by decide +kernel
  refine ⟨hword, hlongest, hunknown, ?_⟩
  exact (splitWords_append_iff hword hlongest hunknown 3).mpr (by decide)

/-- After `x`, the second name of the decimal logarithm is split, though alone it is not. -/
theorem splitWords_append_ne : "x" ∈ (Vocabulary.ofList ["x"]).words ∧
    (∀ y ∈ (Vocabulary.ofList ["x"]).words, y.toList <+: ("x" ++ "log10").toList → y.length ≤ "x".length) ∧
    (Vocabulary.ofList ["x"]).contains ("x" ++ "log10") = false ∧
    splitWords (.ofList ["x"]) [⟨.identifier, 0, 6, "xlog10"⟩] =
      [⟨.identifier, 0, 1, "x"⟩, times 1, ⟨.identifier, 1, 4, "log"⟩, times 4, ⟨.number, 4, 6, "10"⟩] ∧
    splitWords (.ofList ["x"]) [⟨.identifier, 1, 6, "log10"⟩] = [⟨.identifier, 1, 6, "log10"⟩] := by
  decide +kernel

end Token

end FormulaNet

import FormulaNet.Proofs.Notation.Separator
import Mathlib.Data.List.DropRight
import Mathlib.Logic.Function.Iterate

/-!
# Settled notation

A pass of notation does not undo what the passes before it did, but it can make something that they would have
taken away: the glyph of a sum that stood before a blank leaves the blank at the front of the text, a letter
subscript or superscript can complete the name of a net quantity, and joining two symbols puts letters in front
of `pi`.  So bringing a plain text to plain notation can change it again.  It does so just where one of these
three is left; each time the text gets shorter, and in the end it settles.
-/

namespace FormulaNet

variable {x : Char} {a b t : List Char}

/-! ## Blanks and replacements -/

namespace Text

/-- No blank stands at an end. -/
def Unpadded (t : List Char) : Prop := ∀ c, c ∈ t.head? ∨ c ∈ t.getLast? → isBlank c = false

theorem isBlank_of_mem_head?_dropWhile {c : Char} (h : c ∈ (t.dropWhile isBlank).head?) :
    isBlank c = false := by
  have hnot := List.head?_dropWhile_not isBlank t
  rwa [h] at hnot

theorem unpadded_trim (t : List Char) : Unpadded (trim t) := by
  rintro c (hc | hc)
  · exact isBlank_of_mem_head?_dropWhile (mem_head?_of_isPrefix (trimEnd_isPrefix (trimStart t)) hc)
  · rw [trim, trimEnd, List.getLast?_reverse] at hc
    exact isBlank_of_mem_head?_dropWhile hc

theorem trim_eq_self_iff : trim t = t ↔ Unpadded t := by
  constructor
  · intro h
    rw [← h]
    exact unpadded_trim t
  · intro h
    rw [trim_eq_trimStart fun c hc ↦ h c (.inr hc)]
    exact trimStart_eq_self fun c hc ↦ h c (.inl hc)

theorem trim_sublist (t : List Char) : (trim t).Sublist t :=
  (trimEnd_isPrefix (trimStart t)).sublist.trans (trimStart_isSuffix t).sublist

variable {old new : List Char}

theorem mem_replaceAll {c : Char} (h : c ∈ replaceAll old new t) : c ∈ t ∨ c ∈ new := by
  fun_induction replaceAll old new t with
  | case1 => exact .inl h
  | case2 d cs _ ih =>
      rcases List.mem_append.mp h with h | h
      · exact .inr h
      · exact (ih h).imp_left fun hc ↦ List.mem_cons_of_mem d (List.mem_of_mem_drop hc)
  | case3 d cs _ ih =>
      rcases List.mem_cons.mp h with rfl | h
      · exact .inl List.mem_cons_self
      · exact (ih h).imp_left (List.mem_cons_of_mem d)

theorem replaceAll_eq_self (h : ¬old <:+: t) : replaceAll old new t = t := by
  induction t with
  | nil => exact replaceAll_nil old new
  | cons c t ih =>
      rw [replaceAll_of_not_isPrefix fun hp ↦ h hp.isInfix, ih fun hi ↦ h (List.infix_cons hi)]

theorem length_replaceAll_le (hnew : new.length ≤ old.length) : (replaceAll old new t).length ≤ t.length := by
  fun_induction replaceAll old new t with
  | case1 => exact Nat.le_refl _
  | case2 c cs h ih =>
      have hprefix := (List.isPrefixOf_iff_prefix.mp h).length_le
      simp only [List.length_append, List.length_cons, List.length_drop] at hprefix ih ⊢
      omega
  | case3 c cs _ ih =>
      simpa using ih

/-- Putting in something shorter shortens a text that holds what it is put in for. -/
theorem length_replaceAll_lt (hnew : new.length < old.length) (h : old <:+: t) :
    (replaceAll old new t).length < t.length := by
  induction t with
  | nil =>
      rw [List.eq_nil_of_infix_nil h] at hnew
      cases hnew
  | cons c t ih =>
      by_cases hp : old <+: c :: t
      · have hle : (replaceAll old new (t.drop (old.length - 1))).length ≤ (t.drop (old.length - 1)).length :=
          length_replaceAll_le hnew.le
        have hprefix := hp.length_le
        rw [replaceAll_of_isPrefix hp]
        simp only [List.length_append, List.length_cons, List.length_drop] at hle hprefix ⊢
        omega
      · rw [replaceAll_of_not_isPrefix hp]
        exact Nat.succ_lt_succ (ih ((List.infix_cons_iff.mp h).resolve_left hp))

end Text

namespace Notation

open Text

/-! ## Aliases -/

theorem length_lt_of_mem_aliases : ∀ p ∈ aliases, p.2.length < p.1.length := by decide

/-- Putting aliases in place leaves a text as it is if it spells none of them, and makes it shorter otherwise. -/
theorem replaceAliases_eq_self_or_lt (t : List Char) :
    ((∀ p ∈ aliases, ¬p.1 <:+: t) ∧ replaceAliases t = t) ∨
      ((∃ p ∈ aliases, p.1 <:+: t) ∧ (replaceAliases t).length < t.length) := by
  have rounds : ∀ (rules : List (List Char × List Char)) (t : List Char),
      (∀ p ∈ rules, p.2.length < p.1.length) →
      ((∀ p ∈ rules, ¬p.1 <:+: t) ∧ rules.foldl (fun cs p ↦ replaceAll p.1 p.2 cs) t = t) ∨
        ((∃ p ∈ rules, p.1 <:+: t) ∧
          (rules.foldl (fun cs p ↦ replaceAll p.1 p.2 cs) t).length < t.length) := by
    intro rules
    induction rules with
    | nil => exact fun t _ ↦ .inl ⟨List.forall_mem_nil _, rfl⟩
    | cons p rules ih =>
        intro t h
        obtain ⟨hp, hrules⟩ := List.forall_mem_cons.mp h
        rw [List.foldl_cons, List.forall_mem_cons, List.exists_mem_cons_iff]
        by_cases hspelled : p.1 <:+: t
        · have hlt := length_replaceAll_lt hp hspelled
          refine .inr ⟨.inl hspelled, ?_⟩
          rcases ih (replaceAll p.1 p.2 t) hrules with ⟨-, heq⟩ | ⟨-, hlt'⟩
          · rwa [heq]
          · exact hlt'.trans hlt
        · rw [replaceAll_eq_self hspelled]
          rcases ih t hrules with ⟨hnone, heq⟩ | ⟨hsome, hlt⟩
          · exact .inl ⟨⟨hspelled, hnone⟩, heq⟩
          · exact .inr ⟨.inr hsome, hlt⟩
  exact rounds aliases t length_lt_of_mem_aliases

/-- What each replacement keeps, all of them keep. -/
theorem replaceAliases_induction {P : List Char → Prop}
    (step : ∀ p ∈ aliases, ∀ t, P t → P (replaceAll p.1 p.2 t)) (h : P t) : P (replaceAliases t) :=
  List.foldlRecOn (motive := P) aliases _ h fun t ht p hp ↦ step p hp t ht

theorem mem_replaceAliases {c : Char} (h : c ∈ replaceAliases t) : c ∈ t ∨ ∃ p ∈ aliases, c ∈ p.2 := by
  refine replaceAliases_induction (P := fun r ↦ c ∈ r → c ∈ t ∨ ∃ p ∈ aliases, c ∈ p.2) ?_ .inl h
  intro p hp r hr hc
  rcases mem_replaceAll hc with hc | hc
  · exact hr hc
  · exact .inr ⟨p, hp, hc⟩

/-! ## Glyphs -/

/-- A character that stands for itself. -/
def IsPlain (c : Char) : Prop := superscript? c = none ∧ glyph? c = none

instance (c : Char) : Decidable (IsPlain c) := inferInstanceAs (Decidable (_ ∧ _))

theorem replaceGlyphs_eq_self (h : ∀ c ∈ t, IsPlain c) : replaceGlyphs [] t = t := by
  induction t with
  | nil => rfl
  | cons c t ih =>
      obtain ⟨⟨hs, hg⟩, ht⟩ := List.forall_mem_cons.mp h
      rw [replaceGlyphs_cons hs hg, ih ht]

theorem isPlain_of_superscript? {c d : Char} (h : superscript? c = some d) : IsPlain d := by
  unfold superscript? at h
  split at h <;> cases h <;> decide

theorem isPlain_of_glyph? {c d : Char} {cs : List Char} (h : glyph? c = some cs) (hd : d ∈ cs) : IsPlain d := by
  have hall : cs.all (fun d ↦ decide (IsPlain d)) = true := by
    unfold glyph? at h
    split at h <;> cases h <;> decide
  exact of_decide_eq_true (List.all_eq_true.mp hall d hd)

theorem isPlain_of_mem_aliases {p : List Char × List Char} (hp : p ∈ aliases) : ∀ c ∈ p.2, IsPlain c := by
  have hall : ∀ p ∈ aliases, p.2.all (fun c ↦ decide (IsPlain c)) = true := by decide
  exact fun c hc ↦ of_decide_eq_true (List.all_eq_true.mp (hall p hp) c hc)

theorem isPlain_of_mem_power {run : List Char} (hrun : ∀ c ∈ run, IsPlain c) {c : Char} (h : c ∈ power run) :
    IsPlain c := by
  unfold power at h
  split at h
  · cases h
  · next d =>
    rcases List.mem_cons.mp h with rfl | h
    · decide
    · exact hrun c h
  · simp only [List.mem_cons, List.mem_append, List.not_mem_nil, or_false] at h
    rcases h with rfl | rfl | h | rfl
    · decide
    · decide
    · exact hrun c h
    · decide

theorem isPlain_of_mem_replaceGlyphs {run : List Char} (hrun : ∀ c ∈ run, IsPlain c) {c : Char}
    (h : c ∈ replaceGlyphs run t) : IsPlain c := by
  induction t generalizing run with
  | nil => exact isPlain_of_mem_power hrun h
  | cons d t ih =>
      rw [replaceGlyphs] at h
      split at h
      · next e he =>
        refine ih (List.forall_mem_append.mpr ⟨hrun, ?_⟩) h
        exact List.forall_mem_singleton.mpr (isPlain_of_superscript? he)
      · next hnone =>
        rcases List.mem_append.mp h with h | h
        · exact isPlain_of_mem_power hrun h
        · rcases List.mem_append.mp h with h | h
          · cases hg : glyph? d with
            | none =>
                rw [hg] at h
                rw [List.mem_singleton.mp h]
                exact ⟨hnone, hg⟩
            | some cs =>
                rw [hg] at h
                exact isPlain_of_glyph? hg h
          · exact ih (List.forall_mem_nil _) h

/-! ## Joining -/

theorem joinSubscripts_sublist (afterLetter : Bool) (t : List Char) : (joinSubscripts afterLetter t).Sublist t := by
  induction t generalizing afterLetter with
  | nil => exact .slnil
  | cons c t ih =>
      rw [joinSubscripts]
      split
      · exact (ih _).cons _
      · exact (ih _).cons_cons _

theorem joinSuperscripts_sublist (letters t : List Char) : (joinSuperscripts letters t).Sublist t := by
  induction t generalizing letters with
  | nil => exact .slnil
  | cons c t ih =>
      rw [joinSuperscripts]
      split
      · exact (ih _).cons _
      · exact (ih _).cons_cons _

theorem goesOn_joinSubscripts {class_ : Char → Bool} :
    goesOn class_ (joinSubscripts false t) = goesOn class_ t := by
  cases t with
  | nil => rfl
  | cons c t =>
      rw [joinSubscripts_cons_of_not_joins fun h ↦ Bool.false_ne_true h.2.1]
      rfl

theorem goesOn_joinSuperscripts {class_ : Char → Bool} :
    goesOn class_ (joinSuperscripts [] t) = goesOn class_ t := by
  cases t with
  | nil => rfl
  | cons c t =>
      rw [joinSuperscripts_cons_of_not_joins fun h ↦ h.2.1 rfl]
      rfl

/-- What stands before a text matters only to an underscore. -/
theorem joinSubscripts_congr {class_ : Char → Bool} (h : goesOn class_ t = true) (hmark : class_ '_' = false)
    (afterLetter afterLetter' : Bool) : joinSubscripts afterLetter t = joinSubscripts afterLetter' t := by
  cases t with
  | nil => rfl
  | cons c t =>
      have hc : c ≠ '_' := by
        rintro rfl
        exact absurd h (by simp [goesOn, hmark])
      rw [joinSubscripts_cons_of_not_joins (hc ·.1), joinSubscripts_cons_of_not_joins (hc ·.1)]

/-- No underscore that is left could be joined. -/
theorem joinSubscripts_joinSubscripts (afterLetter : Bool) (t : List Char) :
    joinSubscripts afterLetter (joinSubscripts afterLetter t) = joinSubscripts afterLetter t := by
  induction t generalizing afterLetter with
  | nil => rfl
  | cons c t ih =>
      by_cases h : JoinsUnderscore afterLetter c t
      · have hnext : goesOn isAlphanumeric (joinSubscripts false t) = true := goesOn_joinSubscripts.trans h.2.2
        rw [joinSubscripts_cons_of_joins h, joinSubscripts_congr hnext (by decide) afterLetter false, ih]
      · have hkeep : ¬JoinsUnderscore afterLetter c (joinSubscripts (isAlphabetic c) t) := by
          rintro ⟨rfl, hletter, hnext⟩
          exact h ⟨rfl, hletter, goesOn_joinSubscripts.symm.trans hnext⟩
        rw [joinSubscripts_cons_of_not_joins h, joinSubscripts_cons_of_not_joins hkeep, ih]

theorem not_joinsUnderscore_of_eq_self {afterLetter : Bool} (h : joinSubscripts afterLetter (x :: b) = x :: b) :
    ¬JoinsUnderscore afterLetter x b ∧ joinSubscripts (isAlphabetic x) b = b := by
  by_cases hjoins : JoinsUnderscore afterLetter x b
  · have hlength := (joinSubscripts_sublist false b).length_le
    rw [← joinSubscripts_cons_of_joins hjoins, h] at hlength
    exact absurd hlength (Nat.not_succ_le_self _)
  · rw [joinSubscripts_cons_of_not_joins hjoins] at h
    exact ⟨hjoins, (List.cons.inj h).2⟩

/-- Joining superscripts leaves no underscore that could be joined if there was none before. -/
theorem joinSubscripts_joinSuperscripts {afterLetter : Bool} (letters : List Char)
    (h : joinSubscripts afterLetter t = t) :
    joinSubscripts afterLetter (joinSuperscripts letters t) = joinSuperscripts letters t := by
  induction t generalizing afterLetter letters with
  | nil => rfl
  | cons c t ih =>
      obtain ⟨hkept, ht⟩ := not_joinsUnderscore_of_eq_self h
      by_cases hcaret : JoinsCaret letters c t
      · have hnext : goesOn Char.isAlpha (joinSuperscripts [] t) = true :=
          goesOn_joinSuperscripts.trans hcaret.2.2.1
        rw [joinSuperscripts_cons_of_joins hcaret, joinSubscripts_congr hnext (by decide) afterLetter (isAlphabetic c),
          ih [] ht]
      · rw [joinSuperscripts_cons_of_not_joins hcaret]
        have hkeep : ¬JoinsUnderscore afterLetter c
            (joinSuperscripts (if c.isAlpha then c :: letters else []) t) := by
          rintro ⟨rfl, hletter, hnext⟩
          exact hkept ⟨rfl, hletter, goesOn_joinSuperscripts.symm.trans hnext⟩
        rw [joinSubscripts_cons_of_not_joins hkeep, ih _ ht]

/-- The letters at the end of a text, the last one first, where some letters stand before it. -/
def lettersAfter (letters : List Char) (t : List Char) : List Char :=
  t.foldl (fun letters c ↦ if c.isAlpha then c :: letters else []) letters

theorem reverse_lettersAfter (t : List Char) : (lettersAfter [] t).reverse = t.rtakeWhile Char.isAlpha := by
  induction t using List.reverseRecOn with
  | nil => rfl
  | append_singleton t c ih =>
      rw [lettersAfter, List.foldl_concat, ← lettersAfter, List.rtakeWhile_concat]
      split
      · rw [List.reverse_cons, ih]
      · rfl

/-- Nothing is joined if every caret before a letter comes after no letter or after `pi`. -/
theorem joinSuperscripts_eq_self_iff (letters t : List Char) : joinSuperscripts letters t = t ↔
    ∀ u x v, t = u ++ '^' :: x :: v → x.isAlpha = true →
      lettersAfter letters u = [] ∨ lettersAfter letters u = ['i', 'p'] := by
  induction t generalizing letters with
  | nil => simp [joinSuperscripts]
  | cons c t ih =>
      by_cases h : JoinsCaret letters c t
      · refine iff_of_false (fun heq ↦ ?_) fun hall ↦ ?_
        · have hlength := (joinSuperscripts_sublist [] t).length_le
          rw [← joinSuperscripts_cons_of_joins h, heq] at hlength
          exact Nat.not_succ_le_self _ hlength
        · obtain ⟨rfl, hletters, hnext, hpi⟩ := h
          cases t with
          | nil => cases hnext
          | cons x v => exact (hall [] x v rfl hnext).elim hletters hpi
      · rw [joinSuperscripts_cons_of_not_joins h, List.cons.injEq, and_iff_right rfl, ih]
        constructor
        · rintro hall (_ | ⟨d, u⟩) x v heq hx
          · obtain ⟨rfl, rfl⟩ := List.cons.inj heq
            by_contra hne
            rw [not_or] at hne
            exact h ⟨rfl, hne.1, hx, hne.2⟩
          · obtain ⟨rfl, rfl⟩ := List.cons.inj heq
            exact hall u x v rfl hx
        · rintro hall u x v rfl hx
          exact hall (c :: u) x v rfl hx

/-! ## Settled texts -/

/-- No blank stands at an end, no net quantity is named, and a caret between letters comes after `pi`. -/
structure Settled (t : List Char) : Prop where
  unpadded : Unpadded t
  unaliased : ∀ p ∈ aliases, ¬p.1 <:+: t
  carets : ∀ u x v, t = u ++ '^' :: x :: v → x.isAlpha = true →
    u.rtakeWhile Char.isAlpha = [] ∨ u.rtakeWhile Char.isAlpha = ['p', 'i']

/-- No character is a glyph, and no underscore can be joined. -/
structure Joined (t : List Char) : Prop where
  isPlain : ∀ c ∈ t, IsPlain c
  joinSubscripts_eq : joinSubscripts false t = t

theorem joined_normalizeChars (t : List Char) : Joined (normalizeChars t) where
  isPlain c hc := by
    have hglyphs := (joinSubscripts_sublist _ _).subset ((joinSuperscripts_sublist _ _).subset hc)
    exact isPlain_of_mem_replaceGlyphs (List.forall_mem_nil _) hglyphs
  joinSubscripts_eq := joinSubscripts_joinSuperscripts [] (joinSubscripts_joinSubscripts _ _)

theorem joinSuperscripts_nil_eq_self_iff (t : List Char) : joinSuperscripts [] t = t ↔
    ∀ u x v, t = u ++ '^' :: x :: v → x.isAlpha = true →
      u.rtakeWhile Char.isAlpha = [] ∨ u.rtakeWhile Char.isAlpha = ['p', 'i'] := by
  rw [joinSuperscripts_eq_self_iff]
  simp only [← reverse_lettersAfter, List.reverse_eq_iff]
  rfl

theorem length_replaceAliases_le (t : List Char) : (replaceAliases t).length ≤ t.length := by
  rcases replaceAliases_eq_self_or_lt t with ⟨-, heq⟩ | ⟨-, hlt⟩
  · rw [heq]
  · exact hlt.le

/-- Without glyphs no pass makes a text longer. -/
theorem length_normalizeChars_le (h : ∀ c ∈ t, IsPlain c) :
    (normalizeChars t).length ≤ (replaceAliases (trim t)).length := by
  have hplain : ∀ c ∈ replaceAliases (trim t), IsPlain c := by
    intro c hc
    rcases mem_replaceAliases hc with hc | ⟨p, hp, hc⟩
    · exact h c ((trim_sublist t).subset hc)
    · exact isPlain_of_mem_aliases hp c hc
  rw [normalizeChars, replaceGlyphs_eq_self hplain]
  exact ((joinSuperscripts_sublist _ _).trans (joinSubscripts_sublist _ _)).length_le

/-- What has been brought to plain notation stays as it is if it is settled, and gets shorter otherwise. -/
theorem Joined.settled_or_lt (h : Joined t) :
    (Settled t ∧ normalizeChars t = t) ∨ (normalizeChars t).length < t.length := by
  have hle := length_normalizeChars_le h.isPlain
  by_cases htrim : trim t = t
  · rw [htrim] at hle
    rcases replaceAliases_eq_self_or_lt t with ⟨hnone, heq⟩ | ⟨-, hlt⟩
    · have hjoin : normalizeChars t = joinSuperscripts [] t := by
        rw [normalizeChars, htrim, heq, replaceGlyphs_eq_self h.isPlain, h.joinSubscripts_eq]
      by_cases hcarets : joinSuperscripts [] t = t
      · left
        exact ⟨⟨trim_eq_self_iff.mp htrim, hnone, (joinSuperscripts_nil_eq_self_iff t).mp hcarets⟩,
          hjoin.trans hcarets⟩
      · right
        rw [hjoin]
        exact lt_of_not_ge fun hge ↦ hcarets ((joinSuperscripts_sublist [] t).eq_of_length_le hge)
    · exact .inr (hle.trans_lt hlt)
  · have hlt : (trim t).length < t.length :=
      lt_of_not_ge fun hge ↦ htrim ((trim_sublist t).eq_of_length_le hge)
    exact .inr (hle.trans_lt ((length_replaceAliases_le _).trans_lt hlt))

theorem Joined.normalizeChars_eq_self_iff (h : Joined t) : normalizeChars t = t ↔ Settled t := by
  constructor
  · intro heq
    exact (h.settled_or_lt.resolve_right (by simp [heq])).1
  · intro hsettled
    have haliases : replaceAliases t = t := by
      rcases replaceAliases_eq_self_or_lt t with ⟨-, heq⟩ | ⟨⟨p, hp, hspelled⟩, -⟩
      · exact heq
      · exact absurd hspelled (hsettled.unaliased p hp)
    rw [normalizeChars, trim_eq_self_iff.mpr hsettled.unpadded, haliases, replaceGlyphs_eq_self h.isPlain,
      h.joinSubscripts_eq, (joinSuperscripts_nil_eq_self_iff t).mpr hsettled.carets]

theorem normalize_eq_self_iff {s : String} (h : Joined s.toList) : normalize s = s ↔ Settled s.toList := by
  rw [← String.toList_inj, toList_normalize, h.normalizeChars_eq_self_iff]

theorem joined_normalize (s : String) : Joined (normalize s).toList := by
  rw [toList_normalize]
  exact joined_normalizeChars _

/-- Each time that notation changes a text that has been brought to it, the text gets shorter. -/
theorem exists_iterate_eq_self {s : String} (h : Joined s.toList) :
    ∃ n, normalize (normalize^[n] s) = normalize^[n] s := by
  -- from the first time on there are no glyphs, so no pass makes the text longer
  induction hlength : s.toList.length using Nat.strong_induction_on generalizing s with
  | h length ih =>
      rcases h.settled_or_lt with ⟨hsettled, -⟩ | hlt
      · exact ⟨0, (normalize_eq_self_iff h).mpr hsettled⟩
      · rw [← toList_normalize, hlength] at hlt
        obtain ⟨n, hn⟩ := ih _ hlt (joined_normalize s) rfl
        exact ⟨n + 1, hn⟩

/-- **Plain notation is stable where it is settled.**  Bringing a text to plain notation a second time changes
nothing if and only if after the first time no blank stands at an end, no net quantity is named, and every caret
before a letter comes after no letter or after `pi`.  For every text some number of times is enough. -/
theorem normalize_normalize_iff (s : String) :
    (normalize (normalize s) = normalize s ↔ Settled (normalize s).toList) ∧
      ∃ n, normalize (normalize^[n] s) = normalize^[n] s := by
  refine ⟨normalize_eq_self_iff (joined_normalize s), ?_⟩
  obtain ⟨n, hn⟩ := exists_iterate_eq_self (joined_normalize s)
  exact ⟨n + 1, hn⟩

/-- One text for each way in which a second time makes a difference: the blank after the sign of a sum, a caret in
the name of the net force, and a symbol joined to `pi`. -/
theorem normalize_normalize_ne :
    (normalize "Σ F" = " F" ∧ normalize (normalize "Σ F") = "F") ∧
      (normalize "F^net" = "Fnet" ∧ normalize (normalize "F^net") = "F") ∧
      normalize "a^pi^x" = "api^x" ∧ normalize (normalize "a^pi^x") = "apix" := by
  decide +kernel

end Notation

end FormulaNet

import FormulaNet.Decimal.Numeral
import FormulaNet.Proofs.Except
import FormulaNet.Token.Lexer
import Mathlib.Data.List.TakeWhile
import Mathlib.Tactic.Common

/-!
# What tokens there are

However a formula is read, whatever the vocabulary, each of its tokens has been scanned, is a piece of a scanned
identifier, or is a sign of multiplication that a later pass has put in.  What holds of all of these holds of
every token (`forall_of_tokenize`); in particular, identifiers consist of letters, numbers and underscores.
-/

namespace FormulaNet.Token

open Text

variable {v : Vocabulary} {ts : List Token} {t u : Token} {position : Nat} {cs : List Char}

/-- A text of letters, numbers and underscores. -/
def IsWord (s : String) : Prop := ∀ c ∈ s.toList, continuesWord c = true

theorem continuesWord_of_startsWord {c : Char} (h : startsWord c = true) : continuesWord c = true := by
  unfold startsWord at h
  unfold continuesWord isAlphanumeric
  rw [Bool.or_eq_true] at h
  rcases h with h | h
  · simp [h]
  · simp [h]

/-! ## Scanned tokens -/

/-- A token that scanning can find, by what stands at the front of the text. -/
inductive Scanned : Token → Prop
  | stop {start stop : Nat} : Scanned ⟨.stop, start, stop, ""⟩
  | number {start stop : Nat} {c : Char} {cs : List Char} : startsNumber c cs = true →
      Scanned ⟨.number, start, stop, String.ofList (c :: (takeNumber (c = '.') cs).1)⟩
  | word {start stop : Nat} {c : Char} {cs : List Char} : startsWord c = true →
      Scanned ⟨.identifier, start, stop, String.ofList (c :: cs.takeWhile continuesWord)⟩
  | mark {start stop : Nat} {c : Char} {cs : List Char} {kind : Kind} {text : String} {more : Nat} :
      mark? c cs = some (kind, text, more) → Scanned ⟨kind, start, stop, text⟩

theorem scanned_of_scan (h : scan position cs = .ok ts) (ht : t ∈ ts) : Scanned t := by
  fun_induction scan position cs generalizing ts with
  | case1 position =>
      cases h
      obtain rfl := List.mem_singleton.mp ht
      exact .stop
  | case2 position c cs hblank ih =>
      exact ih h ht
  | case3 position c cs hblank hnumber word next =>
      rename_i ih
      obtain ⟨rest, hrest, rfl⟩ := map_eq_ok_iff.mp h
      rcases List.mem_cons.mp ht with rfl | ht
      · exact .number hnumber
      · exact ih hrest ht
  | case4 position c cs hblank hnumber hword word next =>
      rename_i ih
      obtain ⟨rest, hrest, rfl⟩ := map_eq_ok_iff.mp h
      rcases List.mem_cons.mp ht with rfl | ht
      · exact .word hword
      · exact ih hrest ht
  | case5 position c cs hblank hnumber hword kind text more hmark ih =>
      obtain ⟨rest, hrest, rfl⟩ := map_eq_ok_iff.mp h
      rcases List.mem_cons.mp ht with rfl | ht
      · exact .mark hmark
      · exact ih hrest ht
  | case6 position c cs hblank hnumber hword hmark =>
      cases h

/-- The kinds of marks, and what they say. -/
def markTexts : List (Kind × String) :=
  [(.openBracket, "("), (.closeBracket, ")"), (.comma, ","), (.plus, "+"), (.minus, "-"), (.slash, "/"),
    (.caret, "^"), (.caret, "**"), (.star, "*"), (.equals, "=")]

theorem mem_markTexts_of_mark? {c : Char} {rest : List Char} {kind : Kind} {text : String} {more : Nat}
    (h : mark? c rest = some (kind, text, more)) : (kind, text) ∈ markTexts := by
  unfold mark? at h
  split at h
  case h_10 => split at h <;> cases h <;> decide
  all_goals cases h <;> decide

theorem kind_of_mark? {c : Char} {rest : List Char} {kind : Kind} {text : String} {more : Nat}
    (h : mark? c rest = some (kind, text, more)) : kind ≠ .identifier := by
  have hkinds : ∀ m ∈ markTexts, m.1 ≠ .identifier := by decide
  exact hkinds _ (mem_markTexts_of_mark? h)

/-- Scanning puts only words into identifiers. -/
theorem Scanned.isWord (h : Scanned t) (hkind : t.kind = .identifier) : IsWord t.text := by
  cases h with
  | stop => cases hkind
  | number => cases hkind
  | word hword =>
      intro d hd
      rw [String.toList_ofList] at hd
      rcases List.mem_cons.mp hd with rfl | hd
      · exact continuesWord_of_startsWord hword
      · exact List.mem_takeWhile_imp hd
  | mark hmark => exact absurd hkind (kind_of_mark? hmark)

/-! ## Pieces and signs -/

/-- A piece of a word is a part of it, and an identifier or a run of digits. -/
structure Piece (cs : List Char) (t : Token) : Prop where
  kind : t.kind = .identifier ∨ t.kind = .number ∧ Numeral.isDigits t.text.toList = true
  ne_nil : t.text.toList ≠ []
  subset : t.text.toList ⊆ cs

theorem Piece.mono {ds : List Char} (h : Piece cs t) (hsub : cs ⊆ ds) : Piece ds t :=
  ⟨h.kind, h.ne_nil, List.Subset.trans h.subset hsub⟩

theorem kind_of_firstPiece {c : Char} {kind : Kind} {more : Nat} (h : firstPiece v c cs = (kind, more)) :
    kind = .identifier ∨ kind = .number ∧ Numeral.isDigits (c :: cs.take more) = true := by
  unfold firstPiece at h
  split at h
  · exact .inl (Prod.mk.inj h).1.symm
  · split at h
    · next hdigit =>
      obtain ⟨rfl, rfl⟩ := Prod.mk.inj h
      have htake : cs.take (cs.takeWhile Char.isDigit).length = cs.takeWhile Char.isDigit :=
        (List.prefix_iff_eq_take.mp (List.takeWhile_prefix _)).symm
      refine .inr ⟨rfl, ?_⟩
      rw [htake]
      simp [Numeral.isDigits, hdigit]
    · exact .inl (Prod.mk.inj h).1.symm

theorem piece_of_mem (ht : t ∈ pieces v position cs) : Piece cs t := by
  induction position, cs using pieces.induct v with
  | case1 position =>
      rw [pieces] at ht
      cases ht
  | case2 position c cs kind more hpiece piece next ih =>
      rw [pieces, hpiece] at ht
      rcases List.mem_cons.mp ht with rfl | ht
      · refine ⟨?kind, ?ne_nil, ?subset⟩ <;> rw [String.toList_ofList]
        case kind => exact kind_of_firstPiece hpiece
        case ne_nil => exact List.cons_ne_nil c _
        case subset => exact List.cons_subset_cons c (List.take_subset more cs)
      · exact (ih ht).mono (List.subset_cons_of_subset c (List.drop_subset more cs))

theorem mem_splitWords (ht : t ∈ splitWords v ts) :
    t ∈ ts ∨ (∃ u ∈ ts, u.kind = .identifier ∧ Piece u.text.toList t) ∨ ∃ n, t = times n := by
  obtain ⟨u, hu, ht⟩ := List.mem_flatMap.mp ht
  split at ht
  · next hsplit =>
    unfold splitWord at ht
    split at ht
    · cases ht
    · next first others hpieces =>
      have hpiece : ∀ p ∈ first :: others, ∃ u ∈ ts, u.kind = .identifier ∧ Piece u.text.toList p :=
        fun p hp ↦ ⟨u, hu, hsplit.1, piece_of_mem (hpieces ▸ hp)⟩
      rcases List.mem_cons.mp ht with rfl | ht
      · exact .inr (.inl (hpiece _ List.mem_cons_self))
      · obtain ⟨p, hp, ht⟩ := List.mem_flatMap.mp ht
        rcases List.mem_cons.mp ht with rfl | ht
        · exact .inr (.inr ⟨_, rfl⟩)
        · exact .inr (.inl (List.mem_singleton.mp ht ▸ hpiece p (List.mem_cons_of_mem _ hp)))
  · exact .inl (List.mem_singleton.mp ht ▸ hu)

/-- The sign of multiplication that is put between a token and what follows it, if one is. -/
def implied (t : Token) : List Token → List Token
  | [] => []
  | u :: _ => if impliesProduct t u then [times u.start] else []

theorem insertProducts_cons (t : Token) (ts : List Token) :
    insertProducts (t :: ts) = t :: (implied t ts ++ insertProducts ts) := by
  cases ts with
  | nil => rfl
  | cons u ts =>
      rw [insertProducts, implied]
      split <;> rfl

theorem implied_of_not_endsOperand (h : t.endsOperand = false) : implied t ts = [] := by
  cases ts with
  | nil => rfl
  | cons u ts => simp [implied, impliesProduct, h]

theorem implied_of_not_startsOperand (h : u.startsOperand = false) : implied t (u :: ts) = [] := by
  simp [implied, impliesProduct, h]

theorem mem_insertProducts (ht : t ∈ insertProducts ts) : t ∈ ts ∨ ∃ n, t = times n := by
  induction ts with
  | nil => cases ht
  | cons u ts ih =>
      rw [insertProducts_cons, List.mem_cons, List.mem_append] at ht
      rcases ht with rfl | ht | ht
      · exact .inl List.mem_cons_self
      · unfold implied at ht
        split at ht
        · cases ht
        · split at ht
          · exact .inr ⟨_, List.mem_singleton.mp ht⟩
          · cases ht
      · exact (ih ht).imp_left (List.mem_cons_of_mem u)

/-! ## Tokens -/

/-- What holds of the tokens that can be scanned, of the pieces of words and of the sign of multiplication holds
of all tokens. -/
theorem forall_of_tokenize {P : Token → Prop} {text : String} (scanned : ∀ t, Scanned t → P t)
    (piece : ∀ s t, IsWord s → Piece s.toList t → P t) (sign : ∀ n, P (times n))
    (h : tokenize v text = .ok ts) : ∀ t ∈ ts, P t := by
  obtain ⟨words, hscan, rfl⟩ := map_eq_ok_iff.mp h
  intro t ht
  rcases mem_insertProducts ht with ht | ⟨n, rfl⟩
  · rcases mem_splitWords ht with ht | ⟨u, hu, hkind, hpiece⟩ | ⟨n, rfl⟩
    · exact scanned t (scanned_of_scan hscan ht)
    · exact piece u.text t ((scanned_of_scan hscan hu).isWord hkind) hpiece
    · exact sign n
  · exact sign n

/-- **Identifiers are words.** -/
theorem isWord_of_tokenize {text : String} (h : tokenize v text = .ok ts) (ht : t ∈ ts)
    (hkind : t.kind = .identifier) : IsWord t.text :=
  forall_of_tokenize (P := fun t ↦ t.kind = .identifier → IsWord t.text) (fun _ ht ↦ ht.isWord)
    (fun _ _ hword hpiece _ c hc ↦ hword c (hpiece.subset hc)) (fun _ ↦ nofun) h t ht hkind

end FormulaNet.Token

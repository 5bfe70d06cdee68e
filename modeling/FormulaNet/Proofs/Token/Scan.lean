import FormulaNet.Proofs.Token.Lexer
import FormulaNet.Proofs.Decimal.Plain

/-!
# Scanning words and numbers

What a scan finds at the front of a text that begins with a blank, a mark, an identifier or a number
written in full, when what follows does not go on with it.  Neither splitting words nor inserting signs of
multiplication changes tokens whose identifiers are known and of which no two neighbours imply a product.
-/

namespace FormulaNet

/-! ## Characters -/

namespace Text

/-- Every range of one list is below or above every range of the other. -/
def apart (as bs : List (Nat × Nat)) : Bool :=
  as.all fun a ↦ bs.all fun b ↦ a.2.blt b.1 || b.2.blt a.1

theorem exists_mem_of_inRanges {n : Nat} {as : List (Nat × Nat)} (h : inRanges n as = true) :
    ∃ a ∈ as, a.1 ≤ n ∧ n ≤ a.2 := by
  induction as with
  | nil => cases h
  | cons a as ih =>
      rw [inRanges] at h
      split at h
      · cases h
      · next hlow =>
        rw [Bool.or_eq_true, decide_eq_true_iff] at h
        rcases h with h | h
        · exact ⟨a, List.mem_cons_self, Nat.le_of_not_lt hlow, h⟩
        · obtain ⟨b, hb, hn⟩ := ih h
          exact ⟨b, List.mem_cons_of_mem a hb, hn⟩

theorem inRanges_eq_false_of_apart {n : Nat} {as bs : List (Nat × Nat)} (h : apart as bs = true)
    (hb : inRanges n bs = true) : inRanges n as = false := by
  by_contra ha
  rw [Bool.not_eq_false] at ha
  obtain ⟨a, ha, hla, hua⟩ := exists_mem_of_inRanges ha
  obtain ⟨b, hb, hlb, hub⟩ := exists_mem_of_inRanges hb
  have hab := List.all_eq_true.mp (List.all_eq_true.mp h a ha) b hb
  rw [Bool.or_eq_true, Nat.blt_eq, Nat.blt_eq] at hab
  omega

theorem apart_blank_alphabetic : apart blankRanges alphabeticRanges = true := by decide +kernel

/-- The first letter is `A`. -/
theorem inRanges_alphabetic_of_lt {n : Nat} (h : n < 65) : inRanges n alphabeticRanges = false := if_pos h

end Text

namespace Token

open Text Numeral

variable {position : Nat} {c : Char} {cs rest ds : List Char} {s : String}

theorem isBlank_of_startsWord (h : startsWord c = true) : isBlank c = false := by
  rw [startsWord, Bool.or_eq_true, decide_eq_true_iff] at h
  rcases h with h | rfl
  · exact inRanges_eq_false_of_apart apart_blank_alphabetic h
  · decide

theorem startsNumber_of_startsWord (h : startsWord c = true) : startsNumber c cs = false := by
  rw [startsWord, Bool.or_eq_true, decide_eq_true_iff] at h
  rcases h with h | rfl
  · have hletter : 65 ≤ c.toNat := by
      by_contra hlow
      rw [isAlphabetic, inRanges_alphabetic_of_lt (Nat.lt_of_not_le hlow)] at h
      cases h
    have hdigit : c.isDigit = false := by
      by_contra hdigit
      rw [Bool.not_eq_false, Char.isDigit_iff_toNat] at hdigit
      exact absurd (Nat.le_trans hletter hdigit.2) (by decide)
    have hpoint : c ≠ '.' := by
      rintro rfl
      exact absurd hletter (by decide)
    simp [startsNumber, hdigit, hpoint]
  · simp [startsNumber]

/-- The text ends, or goes on with a blank or a bracket: no word or number is longer than this. -/
def Ends (rest : List Char) : Prop := ∀ c ∈ rest.head?, c = ' ' ∨ c = '(' ∨ c = ')'

/-- An underscore or a letter, and then letters, numbers and underscores. -/
def IsIdentifier (s : String) : Prop :=
  ∃ c cs, s.toList = c :: cs ∧ startsWord c = true ∧ ∀ d ∈ cs, continuesWord d = true

/-! ## Scanning -/

/-- Scanning at a position takes some tokens and goes on with the rest of the text at another. -/
def Scans (position : Nat) (cs : List Char) (ts : List Token) (next : Nat) (rest : List Char) : Prop :=
  scan position cs = (scan next rest).map (ts ++ ·)

theorem Scans.trans {p q r : Nat} {as bs cs : List Char} {ts us : List Token} (h : Scans p as ts q bs)
    (h' : Scans q bs us r cs) : Scans p as (ts ++ us) r cs := by
  unfold Scans at h h' ⊢
  rw [h, h']
  cases scan r cs with
  | error e => rfl
  | ok vs => simp [Except.map]

theorem scans_blank : Scans position (' ' :: cs) [] (position + 1) cs := by
  rw [Scans, scan, if_pos (by decide)]
  change scan (position + 1) cs = _
  cases scan (position + 1) cs <;> rfl

/-- The marks of one character, but for the sign of equality. -/
def marks : List (Char × Kind) :=
  [('(', .openBracket), (')', .closeBracket), ('+', .plus), ('-', .minus), ('*', .star), ('/', .slash),
    ('^', .caret)]

/-- A mark at the front; two stars would be one mark. -/
theorem scans_mark {kind : Kind} (h : (c, kind) ∈ marks) (hcs : c = '*' → cs.head? ≠ some '*') :
    ∃ t : Token, t.kind = kind ∧ Scans position (c :: cs) [t] (position + 1) cs := by
  have hclass : ∀ m ∈ marks,
      isBlank m.1 = false ∧ m.1.isDigit = false ∧ m.1 ≠ '.' ∧ startsWord m.1 = false := by
    decide
  obtain ⟨hblank, hdigit, hpoint, hword⟩ := hclass _ h
  have hmark : ∃ text, mark? c cs = some (kind, text, 0) := by
    simp only [marks, List.mem_cons, Prod.mk.injEq, List.not_mem_nil, or_false] at h
    rcases h with ⟨rfl, rfl⟩ | ⟨rfl, rfl⟩ | ⟨rfl, rfl⟩ | ⟨rfl, rfl⟩ | ⟨rfl, rfl⟩ | ⟨rfl, rfl⟩ | ⟨rfl, rfl⟩
    case inr.inr.inr.inr.inl => exact ⟨_, if_neg (hcs rfl)⟩
    all_goals exact ⟨_, rfl⟩
  obtain ⟨text, hmark⟩ := hmark
  refine ⟨⟨kind, position, position + text.utf8ByteSize, text⟩, rfl, ?_⟩
  rw [Scans, scan, if_neg (by simp [hblank]), if_neg (by simp [startsNumber, hdigit, hpoint]),
    if_neg (by simp [hword]), hmark]
  rfl

theorem scans_openBracket (position : Nat) (cs : List Char) :
    ∃ t : Token, t.kind = .openBracket ∧ Scans position ('(' :: cs) [t] (position + 1) cs :=
  scans_mark (by decide) (absurd · (by decide))

theorem scans_closeBracket (position : Nat) (cs : List Char) :
    ∃ t : Token, t.kind = .closeBracket ∧ Scans position (')' :: cs) [t] (position + 1) cs :=
  scans_mark (by decide) (absurd · (by decide))

theorem scans_minus (position : Nat) (cs : List Char) :
    ∃ t : Token, t.kind = .minus ∧ Scans position ('-' :: cs) [t] (position + 1) cs :=
  scans_mark (by decide) (absurd · (by decide))

theorem continuesWord_of_ends (hrest : Ends rest) : ∀ c ∈ rest.head?, continuesWord c = false := by
  intro c hc
  rcases hrest c hc with rfl | rfl | rfl <;> decide

theorem scans_word (position : Nat) (hs : IsIdentifier s) (hrest : Ends rest) :
    ∃ t : Token, ∃ next, t.kind = .identifier ∧ t.text = s ∧
      Scans position (s.toList ++ rest) [t] next rest := by
  obtain ⟨c, cs, hcs, hc, hd⟩ := hs
  have hstop : rest.takeWhile continuesWord = [] ∧ rest.dropWhile continuesWord = rest := by
    cases rest with
    | nil => exact ⟨rfl, rfl⟩
    | cons d rest =>
        have hd := continuesWord_of_ends hrest d rfl
        exact ⟨List.takeWhile_cons_of_neg (by simp [hd]), List.dropWhile_cons_of_neg (by simp [hd])⟩
  refine ⟨⟨.identifier, position, position + utf8Length s.toList, s⟩,
    position + utf8Length s.toList, rfl, rfl, ?_⟩
  rw [Scans, hcs, List.cons_append, scan, if_neg (by simp [isBlank_of_startsWord hc]),
    if_neg (by simp [startsNumber_of_startsWord hc]), if_pos hc]
  simp only [List.takeWhile_append_of_pos hd, List.dropWhile_append_of_pos hd, hstop, List.append_nil, ← hcs,
    String.ofList_toList]
  rfl

/-! ## Numbers -/

theorem isBlank_of_isDigit (h : c.isDigit = true) : isBlank c = false := by
  rw [Char.isDigit_iff_toNat] at h
  have hlow : 48 ≤ c.toNat := h.1
  have hhigh : c.toNat ≤ 57 := h.2
  by_contra hblank
  rw [Bool.not_eq_false] at hblank
  have hapart : apart [(48, 57)] blankRanges = true := by decide
  have hrange := inRanges_eq_false_of_apart hapart hblank
  simp [inRanges] at hrange
  omega

theorem takeNumber_cons_of_isDigit {pointSeen : Bool} (h : c.isDigit = true) :
    takeNumber pointSeen (c :: cs) = (takeNumber pointSeen cs).map (c :: ·) id := by
  rw [takeNumber.eq_def]
  exact if_pos h

theorem takeNumber_point : takeNumber false ('.' :: cs) = (takeNumber true cs).map ('.' :: ·) id := by
  rw [takeNumber.eq_def]
  rfl

theorem takeNumber_digits {pointSeen : Bool} (h : ds.all Char.isDigit = true) :
    takeNumber pointSeen (ds ++ rest) = (takeNumber pointSeen rest).map (ds ++ ·) id := by
  induction ds with
  | nil => rfl
  | cons d ds ih =>
      rw [List.all_cons, Bool.and_eq_true] at h
      rw [List.cons_append, takeNumber_cons_of_isDigit h.1, ih h.2]
      rfl

theorem takeNumber_eq_iff {pointSeen : Bool} :
    takeNumber pointSeen cs = ([], cs) ↔ (takeNumber pointSeen cs).1 = [] := by
  constructor
  · intro h
    rw [h]
  · intro h
    have happend := takeNumber_append pointSeen cs
    rw [h, List.nil_append] at happend
    exact Prod.ext h happend

theorem takeNumber_of_isBlank {pointSeen : Bool} (hc : isBlank c = true) :
    takeNumber pointSeen (c :: cs) = ([], c :: cs) := by
  have hother : ∀ d, isBlank d = false → c ≠ d := by
    rintro d hd rfl
    rw [hd] at hc
    cases hc
  have hdigit : ¬c.isDigit = true := fun h ↦ hother c (isBlank_of_isDigit h) rfl
  rw [takeNumber.eq_def]
  dsimp only
  rw [if_neg hdigit, if_neg fun h ↦ hother '.' (by decide) h.1,
    if_neg (not_or.mpr ⟨hother 'e' (by decide), hother 'E' (by decide)⟩)]

theorem takeNumber_of_ends {pointSeen : Bool} (hrest : Ends rest) :
    takeNumber pointSeen rest = ([], rest) := by
  cases rest with
  | nil => rfl
  | cons c rest =>
      rw [takeNumber.eq_def]
      rcases hrest c rfl with rfl | rfl | rfl <;> rfl

theorem scans_of_takeNumber (position : Nat) (hc : c.isDigit = true)
    (htake : takeNumber false (ds ++ rest) = (ds, rest)) :
    ∃ t : Token, ∃ next, t.kind = .number ∧ t.text = String.ofList (c :: ds) ∧
      Scans position (c :: (ds ++ rest)) [t] next rest := by
  have hpoint : c ≠ '.' := by
    rintro rfl
    exact absurd hc (by decide)
  refine ⟨⟨.number, position, position + utf8Length (c :: ds), String.ofList (c :: ds)⟩,
    position + utf8Length (c :: ds), rfl, rfl, ?_⟩
  rw [Scans, scan, if_neg (by simp [isBlank_of_isDigit hc]), if_pos (by simp [startsNumber, hc])]
  simp only [hpoint, decide_false, htake]
  rfl

/-- A run of digits, where what follows does not go on with a number. -/
theorem scans_digits (position : Nat) (hds : isDigits ds = true) (hrest : takeNumber false rest = ([], rest)) :
    ∃ t : Token, ∃ next, t.kind = .number ∧ t.text = String.ofList ds ∧
      Scans position (ds ++ rest) [t] next rest := by
  obtain ⟨c, ds, rfl, hc, hds⟩ := isDigits_iff.mp hds
  refine scans_of_takeNumber position hc ?_
  rw [takeNumber_digits hds, hrest]
  simp

theorem scans_number (position : Nat) (h : IsPlain cs) (hrest : Ends rest) :
    ∃ t : Token, ∃ next, t.kind = .number ∧ t.text = String.ofList cs ∧
      Scans position (cs ++ rest) [t] next rest := by
  cases h with
  | whole h => exact scans_digits position h (takeNumber_of_ends hrest)
  | fraction h h' =>
      obtain ⟨c, ds, rfl, hc, hds⟩ := isDigits_iff.mp h
      obtain ⟨d, fs, rfl, hd, hfs⟩ := isDigits_iff.mp h'
      have hfraction : (d :: fs).all Char.isDigit = true := by simpa [hd] using hfs
      have htake : takeNumber false (ds ++ '.' :: d :: fs ++ rest) = (ds ++ '.' :: d :: fs, rest) := by
        rw [List.append_assoc, takeNumber_digits hds, List.cons_append, takeNumber_point,
          takeNumber_digits hfraction, takeNumber_of_ends hrest]
        simp
      exact scans_of_takeNumber position hc htake

/-! ## The other passes -/

variable {v : Vocabulary} {ts : List Token}

theorem splitWords_eq_self (h : ∀ t ∈ ts, t.kind = .identifier → v.contains t.text = true) :
    splitWords v ts = ts := by
  induction ts with
  | nil => rfl
  | cons t ts ih =>
      have hkeep : ¬(t.kind = .identifier ∧ (!v.contains t.text) = true) := by
        rintro ⟨hkind, hnew⟩
        rw [h t List.mem_cons_self hkind] at hnew
        cases hnew
      have htail : splitWords v ts = ts := ih fun t ht ↦ h t (List.mem_cons_of_mem _ ht)
      rw [splitWords, List.flatMap_cons, if_neg hkeep, List.singleton_append]
      exact congrArg (t :: ·) htail

theorem insertProducts_eq_self (h : ts.IsChain fun t u ↦ impliesProduct t u = false) :
    insertProducts ts = ts := by
  induction ts using insertProducts.induct with
  | case1 => rfl
  | case2 t => rfl
  | case3 t u ts hproduct ih =>
      rw [List.isChain_cons_cons, hproduct] at h
      cases h.1
  | case4 t u ts hproduct ih =>
      rw [insertProducts, if_neg hproduct, ih (List.isChain_cons_cons.mp h).2]

end Token

end FormulaNet

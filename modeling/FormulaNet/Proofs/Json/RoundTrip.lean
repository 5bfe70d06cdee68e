import FormulaNet.Json.Writer
import FormulaNet.Proofs.Json.Literal

/-!
# Written values are read back

What is written of a value is taken off the front of a text again, in either layout and whatever follows, as
long as a number is not followed by more of a number.  This goes by induction on the value: blanks are put
only where they are skipped, and what follows a member is a comma, a line start or a bracket.
-/

namespace FormulaNet.Json

variable {α : Type} {a b c d e : Char} {s cs rest mid mid' after : List Char} {n : Nat}
variable {key : Option (List Char)} {j item value others : Json} {items : List Json}

/-- A rule takes a value off the front and leaves the rest. -/
def Takes (r : Read α n) (a : α) (rest : List Char) : Prop := ∃ h, r = some ⟨(a, rest), h⟩

theorem Takes.length_lt {r : Read α n} {a : α} (h : Takes r a rest) : rest.length < n := h.elim fun hlt _ ↦ hlt

theorem takes_shorter {r : Option (α × List Char)} {a : α} (h : r = some (a, rest)) (hlt : rest.length < n) :
    Takes (shorter n r) a rest :=
  ⟨hlt, by rw [shorter, h, Option.bind_some, dif_pos hlt]⟩

theorem forall_head?_cons {P : Char → Prop} (h : P c) : ∀ d ∈ (c :: cs).head?, P d := by
  rintro d ⟨rfl⟩
  exact h

/-! ## Strings -/

theorem takes_stringBody_short (hread : escaped? c = some e) (h : Takes (stringBody cs) (some s) rest) :
    Takes (stringBody ('\\' :: c :: cs)) (some (e :: s)) rest := by
  have hlt := h.length_lt
  obtain ⟨_, h⟩ := h
  -- the rule for four hexadecimal digits comes first
  have hu : c ≠ 'u' := by
    rintro rfl
    cases hread
  refine ⟨by simp only [List.length_cons]; omega, ?_⟩
  rw [stringBody]
  · rw [hread]
    simp [h]
  · simp [hu]

theorem takes_stringBody_hex (hread : Text.hex? [a, b, c, d] = some n) (hn : n < 0xD800)
    (h : Takes (stringBody cs) (some s) rest) :
    Takes (stringBody ('\\' :: 'u' :: a :: b :: c :: d :: cs)) (some (Char.ofNat n :: s)) rest := by
  have hlt := h.length_lt
  obtain ⟨_, h⟩ := h
  refine ⟨by simp only [List.length_cons]; omega, ?_⟩
  rw [stringBody, hread]
  simp [h, hn]

theorem takes_stringBody_plain (hquote : c ≠ '"') (hback : c ≠ '\\') (hc : ¬c.toNat < 0x20)
    (h : Takes (stringBody cs) (some s) rest) : Takes (stringBody (c :: cs)) (some (c :: s)) rest := by
  have hlt := h.length_lt
  obtain ⟨_, h⟩ := h
  refine ⟨by simp only [List.length_cons]; omega, ?_⟩
  rw [stringBody]
  · rw [if_neg hc]
    simp [h]
  · exact hquote
  · simp [hback]
  · simp [hback]

theorem hex?_hexDigit : ∀ n < 0x20, Text.hex? ['0', '0', hexDigit (n / 16), hexDigit (n % 16)] = some n := by
  decide

/-- A character is written by a short escape, by its number, or as it is. -/
theorem escape_cases (c : Char) : (∃ e, escaped? e = some c ∧ escape c = ['\\', e]) ∨
    (c.toNat < 0x20 ∧ escape c = ['\\', 'u', '0', '0', hexDigit (c.toNat / 16), hexDigit (c.toNat % 16)]) ∨
    (c ≠ '"' ∧ c ≠ '\\' ∧ ¬c.toNat < 0x20 ∧ escape c = [c]) := by
  unfold escape
  split
  · exact .inl ⟨_, rfl, rfl⟩
  · exact .inl ⟨_, rfl, rfl⟩
  · exact .inl ⟨_, rfl, rfl⟩
  · exact .inl ⟨_, rfl, rfl⟩
  · exact .inl ⟨_, rfl, rfl⟩
  · exact .inl ⟨_, rfl, rfl⟩
  · exact .inl ⟨_, rfl, rfl⟩
  · next hquote hback _ _ _ _ _ =>
    split
    · next hcontrol => exact .inr (.inl ⟨hcontrol, rfl⟩)
    · next hcontrol => exact .inr (.inr ⟨hquote, hback, hcontrol, rfl⟩)

theorem takes_stringBody_escape (h : Takes (stringBody cs) (some s) rest) (c : Char) :
    Takes (stringBody (escape c ++ cs)) (some (c :: s)) rest := by
  obtain ⟨e, hread, heq⟩ | ⟨hcontrol, heq⟩ | ⟨hquote, hback, hcontrol, heq⟩ := escape_cases c
  · rw [heq]
    exact takes_stringBody_short hread h
  -- a control character is no half of a surrogate pair
  · have hc := takes_stringBody_hex (hex?_hexDigit c.toNat hcontrol) (by omega) h
    rw [Char.ofNat_toNat] at hc
    rwa [heq]
  · rw [heq]
    exact takes_stringBody_plain hquote hback hcontrol h

/-- Any string is read back from its escapes. -/
theorem takes_stringBody (s rest : List Char) :
    Takes (stringBody (s.flatMap escape ++ '"' :: rest)) (some s) rest := by
  induction s with
  | nil =>
      have h : Takes (stringBody ('"' :: rest)) (some []) rest := ⟨Nat.lt_succ_self _, by rw [stringBody]⟩
      exact h
  | cons c s ih =>
      rw [List.flatMap_cons, List.append_assoc]
      exact takes_stringBody_escape ih c

/-! ## Values without members -/

theorem takes_readValue_string (h : Takes (stringBody cs) (some s) rest) :
    Takes (readValue ('"' :: cs)) (string (String.ofList s)) rest := by
  obtain ⟨hlt, h⟩ := h
  refine ⟨Nat.lt_succ_of_lt hlt, ?_⟩
  rw [readValue, h]
  rfl

theorem takes_readValue_null (rest : List Char) : Takes (readValue ("null".toList ++ rest)) null rest := by
  change Takes (readValue ('n' :: 'u' :: 'l' :: 'l' :: rest)) _ _
  rw [readValue]
  exact takes_shorter rfl (by simp only [List.length_cons]; omega)

theorem takes_readValue_bool (b : Bool) (rest : List Char) :
    Takes (readValue ((if b then "true" else "false").toList ++ rest)) (bool b) rest := by
  cases b with
  | false =>
      change Takes (readValue ('f' :: 'a' :: 'l' :: 's' :: 'e' :: rest)) _ _
      rw [readValue]
      exact takes_shorter rfl (by simp only [List.length_cons]; omega)
  | true =>
      change Takes (readValue ('t' :: 'r' :: 'u' :: 'e' :: rest)) _ _
      rw [readValue]
      exact takes_shorter rfl (by simp only [List.length_cons]; omega)

/-- Neither a blank nor the front of another value begins a number. -/
theorem notMem_of_literal (h : c.isDigit = true ∨ c = '-') :
    c ∉ [' ', '\n', '\t', '\r', ']', '"', '[', '\x7b', 't', 'f', 'n'] := by
  intro hmem
  simp only [List.mem_cons, List.not_mem_nil, or_false] at hmem
  rcases hmem with rfl | rfl | rfl | rfl | rfl | rfl | rfl | rfl | rfl | rfl | rfl <;> revert h <;> decide

theorem takes_readValue_number {l : List Char} (h : IsLiteral l) (hrest : EndsLiteral rest) :
    Takes (readValue (l ++ rest)) (number (String.ofList l)) rest := by
  have hread := literal?_append h hrest
  obtain ⟨c, cs, rfl, hc⟩ := exists_head_of_isLiteral h
  have hother := notMem_of_literal hc
  simp only [List.mem_cons, List.not_mem_nil, or_false, not_or] at hother
  rw [List.cons_append] at hread ⊢
  rw [readValue]
  · exact takes_shorter (by rw [hread]; rfl) (by rw [List.length_cons, List.length_append]; omega)
  all_goals simp [hother]

/-! ## Values with members -/

theorem length_lt_of_skipBlanks (h : skipBlanks cs = c :: rest) : rest.length < cs.length := by
  have hle := length_skipBlanks_le cs
  rwa [h, List.length_cons] at hle

theorem takes_readValue_array_nil (rest : List Char) : Takes (readValue ('[' :: ']' :: rest)) (array []) rest := by
  refine ⟨Nat.lt_succ_of_lt (Nat.lt_succ_self _), ?_⟩
  rw [readValue]
  rfl

theorem takes_readValue_array (hne : (skipBlanks cs).head? ≠ some ']')
    (h : Takes (readItems (skipBlanks cs)) items rest) : Takes (readValue ('[' :: cs)) (array items) rest := by
  have hlt := h.length_lt
  have hle := length_skipBlanks_le cs
  obtain ⟨_, h⟩ := h
  refine ⟨by simp only [List.length_cons]; omega, ?_⟩
  rw [readValue]
  split
  · next heq =>
    rw [heq] at hne
    exact absurd rfl hne
  · rw [h]
    rfl

/-- After an item the array ends, or a comma comes and the items after it. -/
def ItemsAfter (after : List Char) (items : List Json) (rest : List Char) : Prop :=
  items = [] ∧ skipBlanks after = ']' :: rest ∨
    ∃ after', skipBlanks after = ',' :: after' ∧ Takes (readItems (skipBlanks after')) items rest

theorem ItemsAfter.length_lt (h : ItemsAfter after items rest) : rest.length < after.length := by
  rcases h with ⟨-, hafter⟩ | ⟨after', hafter, hitems⟩
  · exact length_lt_of_skipBlanks hafter
  · have hlt := length_lt_of_skipBlanks hafter
    have hle := length_skipBlanks_le after'
    have hlt' := hitems.length_lt
    omega

theorem takes_readItems_cons (h : Takes (readValue cs) item after) (hafter : ItemsAfter after items rest) :
    Takes (readItems cs) (item :: items) rest := by
  have hlt := hafter.length_lt.trans h.length_lt
  obtain ⟨_, h⟩ := h
  refine ⟨hlt, ?_⟩
  rw [readItems, h]
  simp only [Option.bind_eq_bind, Option.bind_some]
  rcases hafter with ⟨rfl, hafter⟩ | ⟨after', hafter, _, hitems⟩
  · split
    · next heq =>
      obtain ⟨-, rfl⟩ := List.cons.inj (hafter.symm.trans heq)
      rfl
    · next heq => cases hafter.symm.trans heq
    · next hnot _ => exact absurd hafter (hnot _)
  · split
    · next heq => cases hafter.symm.trans heq
    · next heq =>
      obtain ⟨-, rfl⟩ := List.cons.inj (hafter.symm.trans heq)
      rw [hitems]
      rfl
    · next _ hnot => exact absurd hafter (hnot _)

theorem takes_readValue_object_nil (rest : List Char) :
    Takes (readValue ('\x7b' :: '\x7d' :: rest)) (object []) rest := by
  refine ⟨Nat.lt_succ_of_lt (Nat.lt_succ_self _), ?_⟩
  rw [readValue]
  rfl

theorem takes_readValue_object (hne : (skipBlanks cs).head? ≠ some '\x7d')
    (h : Takes (readFields (skipBlanks cs)) value rest) : Takes (readValue ('\x7b' :: cs)) value rest := by
  have hlt := h.length_lt
  have hle := length_skipBlanks_le cs
  obtain ⟨_, h⟩ := h
  refine ⟨by simp only [List.length_cons]; omega, ?_⟩
  rw [readValue]
  split
  · next heq =>
    rw [heq] at hne
    exact absurd rfl hne
  · rw [h]
    rfl

/-- After a field the object ends, or a comma comes and the fields after it. -/
def FieldsAfter (after : List Char) (others : Json) (rest : List Char) : Prop :=
  others = object [] ∧ skipBlanks after = '\x7d' :: rest ∨
    ∃ after', skipBlanks after = ',' :: after' ∧ Takes (readFields (skipBlanks after')) others rest

theorem FieldsAfter.length_lt (h : FieldsAfter after others rest) : rest.length < after.length := by
  rcases h with ⟨-, hafter⟩ | ⟨after', hafter, hothers⟩
  · exact length_lt_of_skipBlanks hafter
  · have hlt := length_lt_of_skipBlanks hafter
    have hle := length_skipBlanks_le after'
    have hlt' := hothers.length_lt
    omega

theorem takes_readFields_cons (hkey : Takes (stringBody cs) key mid) (hmid : skipBlanks mid = ':' :: mid')
    (hvalue : Takes (readValue (skipBlanks mid')) value after) (hafter : FieldsAfter after others rest) :
    Takes (readFields ('"' :: cs)) (joinField key value others) rest := by
  have hlt : rest.length < cs.length :=
    calc
      rest.length < after.length := hafter.length_lt
      _ < (skipBlanks mid').length := hvalue.length_lt
      _ ≤ mid'.length := length_skipBlanks_le mid'
      _ < mid.length := length_lt_of_skipBlanks hmid
      _ < cs.length := hkey.length_lt
  obtain ⟨_, hkey⟩ := hkey
  obtain ⟨_, hvalue⟩ := hvalue
  refine ⟨Nat.lt_succ_of_lt hlt, ?_⟩
  rw [readFields, hkey]
  simp only [Option.bind_eq_bind, Option.bind_some]
  split
  · next heq =>
    obtain ⟨-, rfl⟩ := List.cons.inj (hmid.symm.trans heq)
    rw [hvalue]
    simp only [Option.bind_some]
    rcases hafter with ⟨rfl, hafter⟩ | ⟨after', hafter, _, hothers⟩
    · split
      · next heq =>
        obtain ⟨-, rfl⟩ := List.cons.inj (hafter.symm.trans heq)
        rfl
      · next heq => cases hafter.symm.trans heq
      · next hnot _ => exact absurd hafter (hnot _)
    · split
      · next heq => cases hafter.symm.trans heq
      · next heq =>
        obtain ⟨-, rfl⟩ := List.cons.inj (hafter.symm.trans heq)
        rw [hothers]
        rfl
      · next _ hnot => exact absurd hafter (hnot _)
  · next hnot => exact absurd hmid (hnot _)

/-! ## Layouts -/

section Layouts

variable (layout : Layout)

theorem skipBlanks_of_head (h : ∀ c ∈ cs.head?, isBlank c = false) : skipBlanks cs = cs := by
  cases cs with
  | nil => rfl
  | cons c cs => exact List.dropWhile_cons_of_neg (ne_true_of_eq_false (h c rfl))

theorem skipBlanks_lineStart (h : ∀ c ∈ cs.head?, isBlank c = false) : skipBlanks (layout.lineStart ++ cs) = cs := by
  have hblank : ∀ c ∈ layout.lineStart, isBlank c = true := by
    cases layout with
    | oneLine =>
        intro c hc
        cases hc
    | indented depth =>
        intro c hc
        rcases List.mem_cons.mp hc with rfl | hc
        · rfl
        · rw [List.eq_of_mem_replicate hc]
          rfl
  rw [skipBlanks, List.dropWhile_append_of_pos hblank]
  exact skipBlanks_of_head h

/-- Only blanks come after the colon of a field. -/
theorem exists_colon : ∃ blanks, layout.colon = ':' :: blanks ∧ ∀ cs,
    (∀ c ∈ cs.head?, isBlank c = false) → skipBlanks (blanks ++ cs) = cs := by
  cases layout with
  | oneLine => exact ⟨[], rfl, fun cs h ↦ skipBlanks_of_head h⟩
  | indented depth =>
      refine ⟨[' '], rfl, fun cs h ↦ ?_⟩
      rw [List.singleton_append, skipBlanks, List.dropWhile_cons_of_pos rfl]
      exact skipBlanks_of_head h

theorem endsLiteral_lineStart (h : EndsLiteral rest) : EndsLiteral (layout.lineStart ++ rest) := by
  cases layout with
  | oneLine => exact h
  | indented depth => exact forall_head?_cons (by decide)

theorem quoted_append (s : String) (rest : List Char) :
    quoted s ++ rest = '"' :: (s.toList.flatMap escape ++ '"' :: rest) := by
  simp [quoted]

theorem not_isBlank_quoted (s : String) (rest : List Char) : ∀ c ∈ (quoted s ++ rest).head?, isBlank c = false := by
  rw [quoted_append]
  exact forall_head?_cons rfl

theorem writeItems_append (item : Json) (items : List Json) (rest : List Char) :
    writeItems layout (item :: items) ++ rest =
      ',' :: (layout.lineStart ++ (writeValue layout item ++ (writeItems layout items ++ rest))) := by
  simp [writeItems]

theorem writeFields_append (field : String × Json) (fields : List (String × Json)) (rest : List Char) :
    writeFields layout (field :: fields) ++ rest =
      ',' :: (layout.lineStart ++ (quoted field.1 ++ (layout.colon ++
        (writeValue layout field.2 ++ (writeFields layout fields ++ rest))))) := by
  simp [writeFields]

theorem writeValue_array_append (item : Json) (items : List Json) (rest : List Char) :
    writeValue layout (array (item :: items)) ++ rest =
      '[' :: (layout.inner.lineStart ++ (writeValue layout.inner item ++
        (writeItems layout.inner items ++ (layout.lineStart ++ ']' :: rest)))) := by
  simp [writeValue]

theorem writeValue_object_append (field : String × Json) (fields : List (String × Json)) (rest : List Char) :
    writeValue layout (object (field :: fields)) ++ rest =
      '\x7b' :: (layout.inner.lineStart ++ (quoted field.1 ++ (layout.inner.colon ++
        (writeValue layout.inner field.2 ++ (writeFields layout.inner fields ++
          (layout.lineStart ++ '\x7d' :: rest)))))) := by
  simp [writeValue]

end Layouts

/-! ## Round trip -/

/-- A value with a text of its own: nothing in it is malformed, and its numbers are literals. -/
inductive WellFormed : Json → Prop
  | null : WellFormed null
  | bool (b : Bool) : WellFormed (bool b)
  | number {l : String} : IsLiteral l.toList → WellFormed (number l)
  | string (s : String) : WellFormed (string s)
  | array {items : List Json} : (∀ item ∈ items, WellFormed item) → WellFormed (array items)
  | object {fields : List (String × Json)} : (∀ field ∈ fields, WellFormed field.2) → WellFormed (object fields)

/-- The text of a value is read back as the value, in every layout and whatever comes after it. -/
structure Readable (j : Json) : Prop where
  head : ∀ layout, ∃ c cs, writeValue layout j = c :: cs ∧ isBlank c = false ∧ c ≠ ']'
  takes : ∀ layout rest, EndsLiteral rest → Takes (readValue (writeValue layout j ++ rest)) j rest

theorem Readable.not_isBlank (h : Readable j) (layout : Layout) (rest : List Char) :
    ∀ c ∈ (writeValue layout j ++ rest).head?, isBlank c = false := by
  obtain ⟨c, cs, hcs, hblank, -⟩ := h.head layout
  rw [hcs]
  exact forall_head?_cons hblank

theorem takes_readItems (layout outer : Layout) (rest : List Char) (hitem : Readable item)
    (hitems : ∀ j ∈ items, Readable j) :
    Takes (readItems (writeValue layout item ++ (writeItems layout items ++ (outer.lineStart ++ ']' :: rest))))
      (item :: items) rest := by
  induction items generalizing item with
  | nil =>
      refine takes_readItems_cons (hitem.takes layout _ ?_) (.inl ⟨rfl, ?_⟩)
      · exact endsLiteral_lineStart outer (forall_head?_cons (by decide))
      · exact skipBlanks_lineStart outer (forall_head?_cons rfl)
  | cons next items ih =>
      -- the comma ends a literal, and the blanks after it are skipped up to the next item
      obtain ⟨hnext, hitems⟩ := List.forall_mem_cons.mp hitems
      rw [writeItems_append]
      refine takes_readItems_cons (hitem.takes layout _ (forall_head?_cons (by decide)))
        (.inr ⟨_, skipBlanks_of_head (forall_head?_cons rfl), ?_⟩)
      rw [skipBlanks_lineStart layout (hnext.not_isBlank layout _)]
      exact ih hnext hitems

theorem joinField_toList (key : String) (value : Json) (fields : List (String × Json)) :
    joinField (some key.toList) value (object fields) = object ((key, value) :: fields) := by
  rw [joinField, String.ofList_toList]

theorem takes_readFields (layout outer : Layout) (key : String) (rest : List Char) {value : Json}
    {fields : List (String × Json)} (hvalue : Readable value) (hfields : ∀ field ∈ fields, Readable field.2) :
    Takes (readFields (quoted key ++ (layout.colon ++ (writeValue layout value ++
      (writeFields layout fields ++ (outer.lineStart ++ '\x7d' :: rest))))))
      (object ((key, value) :: fields)) rest := by
  obtain ⟨blanks, hcolon, hskip⟩ := exists_colon layout
  have hread : ∀ after, EndsLiteral after →
      Takes (readValue (skipBlanks (blanks ++ (writeValue layout value ++ after)))) value after := by
    intro after hafter
    rw [hskip _ (hvalue.not_isBlank layout _)]
    exact hvalue.takes layout after hafter
  have hmid : ∀ cs : List Char, skipBlanks (layout.colon ++ cs) = ':' :: (blanks ++ cs) := by
    intro cs
    rw [hcolon]
    exact skipBlanks_of_head (forall_head?_cons rfl)
  rw [quoted_append, ← joinField_toList]
  cases fields with
  | nil =>
      refine takes_readFields_cons (takes_stringBody _ _) (hmid _) (hread _ ?_) (.inl ⟨rfl, ?_⟩)
      · exact endsLiteral_lineStart outer (forall_head?_cons (by decide))
      · exact skipBlanks_lineStart outer (forall_head?_cons rfl)
  | cons field fields =>
      obtain ⟨hnext, hfields⟩ := List.forall_mem_cons.mp hfields
      rw [writeFields_append]
      refine takes_readFields_cons (takes_stringBody _ _) (hmid _) (hread _ (forall_head?_cons (by decide)))
        (.inr ⟨_, skipBlanks_of_head (forall_head?_cons rfl), ?_⟩)
      rw [skipBlanks_lineStart layout (not_isBlank_quoted _ _)]
      exact takes_readFields layout outer field.1 rest hnext hfields

theorem Readable.number {l : String} (h : IsLiteral l.toList) : Readable (number l) where
  head layout := by
    obtain ⟨c, cs, hcs, hc⟩ := exists_head_of_isLiteral h
    have hother := notMem_of_literal hc
    simp only [List.mem_cons, List.not_mem_nil, or_false, not_or] at hother
    exact ⟨c, cs, by rw [writeValue, hcs], by simp [isBlank, hother], hother.2.2.2.2.1⟩
  takes layout rest hrest := by
    have hread := takes_readValue_number h hrest
    rwa [String.ofList_toList, ← writeValue] at hread

theorem Readable.array (h : ∀ item ∈ items, Readable item) : Readable (array items) := by
  cases items with
  | nil =>
      refine ⟨fun layout ↦ ⟨'[', [']'], by rw [writeValue], rfl, by decide⟩, fun layout rest _ ↦ ?_⟩
      rw [writeValue]
      exact takes_readValue_array_nil rest
  | cons item items =>
      obtain ⟨hitem, hitems⟩ := List.forall_mem_cons.mp h
      refine ⟨fun layout ↦ ⟨'[', _, by rw [writeValue], rfl, by decide⟩, fun layout rest _ ↦ ?_⟩
      obtain ⟨c, cs, hcs, -, hclose⟩ := hitem.head layout.inner
      rw [writeValue_array_append]
      refine takes_readValue_array ?_ ?_
      · rw [skipBlanks_lineStart layout.inner (hitem.not_isBlank _ _), hcs]
        exact fun heq ↦ hclose (Option.some.inj heq)
      · rw [skipBlanks_lineStart layout.inner (hitem.not_isBlank _ _)]
        exact takes_readItems layout.inner layout rest hitem hitems

theorem Readable.object {fields : List (String × Json)} (h : ∀ field ∈ fields, Readable field.2) :
    Readable (object fields) := by
  cases fields with
  | nil =>
      refine ⟨fun layout ↦ ⟨'\x7b', ['\x7d'], by rw [writeValue], rfl, by decide⟩, fun layout rest _ ↦ ?_⟩
      rw [writeValue]
      exact takes_readValue_object_nil rest
  | cons field fields =>
      obtain ⟨hvalue, hfields⟩ := List.forall_mem_cons.mp h
      refine ⟨fun layout ↦ ⟨'\x7b', _, by rw [writeValue], rfl, by decide⟩, fun layout rest _ ↦ ?_⟩
      rw [writeValue_object_append]
      refine takes_readValue_object ?_ ?_
      · rw [skipBlanks_lineStart layout.inner (not_isBlank_quoted _ _), quoted_append]
        exact fun heq ↦ absurd (Option.some.inj heq) (by decide)
      · rw [skipBlanks_lineStart layout.inner (not_isBlank_quoted _ _)]
        exact takes_readFields layout.inner layout field.1 rest hvalue hfields

theorem read?_of_takes {text : String} (h : Takes (readValue (skipBlanks text.toList)) j []) :
    read? text = some j := by
  obtain ⟨_, h⟩ := h
  rw [read?, h]
  rfl

namespace WellFormed

theorem readable (h : WellFormed j) : Readable j := by
  induction h with
  | null =>
      refine ⟨fun layout ↦ ⟨'n', ['u', 'l', 'l'], by rw [writeValue]; simp, rfl, by decide⟩, fun layout rest _ ↦ ?_⟩
      rw [writeValue]
      exact takes_readValue_null rest
  | bool b =>
      refine ⟨fun layout ↦ ?_, fun layout rest _ ↦ ?_⟩
      · rw [writeValue]
        cases b with
        | false => exact ⟨'f', ['a', 'l', 's', 'e'], by simp, rfl, by decide⟩
        | true => exact ⟨'t', ['r', 'u', 'e'], by simp, rfl, by decide⟩
      · rw [writeValue]
        exact takes_readValue_bool b rest
  | number h => exact .number h
  | string s =>
      refine ⟨fun layout ↦ ⟨'"', _, by rw [writeValue, quoted], rfl, by decide⟩, fun layout rest _ ↦ ?_⟩
      have hread := takes_readValue_string (takes_stringBody s.toList rest)
      rwa [String.ofList_toList, ← quoted_append, ← writeValue] at hread
  | array _ ih => exact .array ih
  | object _ ih => exact .object ih

/-- **A value is read back from its text, in either layout.** -/
theorem read?_write (h : WellFormed j) (layout : Layout) : read? (String.ofList (writeValue layout j)) = some j := by
  have hends : EndsLiteral [] := by
    intro c hc
    cases hc
  have hblank := h.readable.not_isBlank layout []
  have hread := h.readable.takes layout [] hends
  rw [List.append_nil] at hblank hread
  refine read?_of_takes ?_
  rwa [String.toList_ofList, skipBlanks_of_head hblank]

end WellFormed

end FormulaNet.Json

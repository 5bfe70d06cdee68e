import FormulaNet.Json.Basic
import FormulaNet.Text.Reading

/-!
# Reading JSON text

A strict reader: no trailing commas, no leading zeros, no raw control characters in strings, nothing but
blanks after the value.  Each rule hands on the characters it left together with a proof that they have
become fewer, so nesting may be of any depth.
-/

namespace FormulaNet.Json

open Text (hex?)

/-- What a rule read, and the characters it left. -/
abbrev Read (α : Type) (n : Nat) := Option { r : α × List Char // r.2.length < n }

def isBlank (c : Char) : Bool := c = ' ' || c = '\n' || c = '\t' || c = '\r'

def skipBlanks (cs : List Char) : List Char := cs.dropWhile isBlank

theorem length_skipBlanks_le (cs : List Char) : (skipBlanks cs).length ≤ cs.length :=
  (List.dropWhile_suffix isBlank).sublist.length_le

/-! ## Strings -/

/-- The character of a short escape. -/
def escaped? : Char → Option Char
  | '"' => some '"'
  | '\\' => some '\\'
  | '/' => some '/'
  | 'b' => some '\x08'
  | 'f' => some '\x0c'
  | 'n' => some '\n'
  | 'r' => some '\r'
  | 't' => some '\t'
  | _ => none

/-- The low half of a surrogate pair, if an escape of one comes next. -/
def lowHalf? : List Char → Option (Nat × List Char)
  | '\\' :: 'u' :: a :: b :: c :: d :: rest =>
    match hex? [a, b, c, d] with
    | some n => if 0xDC00 ≤ n ∧ n < 0xE000 then some (n, rest) else none
    | none => none
  | _ => none

theorem length_lowHalf?_lt {cs rest : List Char} {n : Nat} (h : lowHalf? cs = some (n, rest)) :
    rest.length < cs.length := by
  unfold lowHalf? at h
  split at h
  · split at h
    · split at h
      · simp only [Option.some.injEq, Prod.mk.injEq] at h
        simp only [← h.2, List.length_cons]; omega
      · simp at h
    · simp at h
  · simp at h

/-- The contents of a string up to its closing quote; `none` inside if half of a surrogate pair stands
alone. -/
def stringBody (cs : List Char) : Read (Option (List Char)) cs.length :=
  match cs with
  | [] => none
  | '"' :: rest => some ⟨(some [], rest), by simp⟩
  | '\\' :: 'u' :: a :: b :: c :: d :: rest =>
    match hex? [a, b, c, d] with
    | none => none
    | some n =>
      if n < 0xD800 ∨ 0xE000 ≤ n then do
        let ⟨(s, rest'), h⟩ ← stringBody rest
        some ⟨(s.map (Char.ofNat n :: ·), rest'), by simp only [List.length_cons] at *; omega⟩
      else
        match hl : (if n < 0xDC00 then lowHalf? rest else none) with
        | some (low, rest') =>
          have hlt : rest'.length < rest.length := by
            split at hl
            · exact length_lowHalf?_lt hl
            · simp at hl
          do
          let ⟨(s, rest''), h⟩ ← stringBody rest'
          let c := Char.ofNat (0x10000 + (n - 0xD800) * 0x400 + (low - 0xDC00))
          some ⟨(s.map (c :: ·), rest''), by simp only [List.length_cons] at *; omega⟩
        | none => do
          let ⟨(_, rest'), h⟩ ← stringBody rest
          some ⟨(none, rest'), by simp only [List.length_cons] at *; omega⟩
  | '\\' :: c :: rest =>
    match escaped? c with
    | none => none
    | some e => do
      let ⟨(s, rest'), h⟩ ← stringBody rest
      some ⟨(s.map (e :: ·), rest'), by simp only [List.length_cons] at *; omega⟩
  | c :: rest =>
    if c.toNat < 0x20 then none
    else do
      let ⟨(s, rest'), h⟩ ← stringBody rest
      some ⟨(s.map (c :: ·), rest'), by simp only [List.length_cons] at *; omega⟩
termination_by cs.length

/-! ## Numbers -/

/-- A nonempty run of digits. -/
def digits? (cs : List Char) : Option (List Char × List Char) :=
  if cs.takeWhile Char.isDigit = [] then none
  else some (cs.takeWhile Char.isDigit, cs.dropWhile Char.isDigit)

/-- The digits before the point: a zero stands alone. -/
def wholePart? : List Char → Option (List Char × List Char)
  | '0' :: c :: rest => if c.isDigit then none else some (['0'], c :: rest)
  | cs => digits? cs

def fractionPart? : List Char → Option (List Char × List Char)
  | '.' :: rest => (digits? rest).map fun (ds, rest) => ('.' :: ds, rest)
  | cs => some ([], cs)

def powerPart? : List Char → Option (List Char × List Char)
  | c :: rest =>
    if c = 'e' ∨ c = 'E' then
      match rest with
      | '+' :: rest => (digits? rest).map fun (ds, rest) => (c :: '+' :: ds, rest)
      | '-' :: rest => (digits? rest).map fun (ds, rest) => (c :: '-' :: ds, rest)
      | rest => (digits? rest).map fun (ds, rest) => (c :: ds, rest)
    else some ([], c :: rest)
  | [] => some ([], [])

/-- The literal of a number at the front. -/
def literal? (cs : List Char) : Option (List Char × List Char) := do
  let (sign, rest) := match cs with
    | '-' :: rest => (['-'], rest)
    | rest => ([], rest)
  let (whole, rest) ← wholePart? rest
  let (fraction, rest) ← fractionPart? rest
  let (power, rest) ← powerPart? rest
  some (sign ++ whole ++ fraction ++ power, rest)

/-! ## Values -/

/-- Takes a word that has to be there. -/
def word? (word cs : List Char) : Option (List Char) :=
  if word.isPrefixOf cs then some (cs.drop word.length) else none

/-- Accepts what a rule left only if it is shorter than what was there. -/
def shorter {α : Type} (n : Nat) (r : Option (α × List Char)) : Read α n :=
  r.bind fun r => if h : r.2.length < n then some ⟨r, h⟩ else none

/-- The value of a string with these contents. -/
def ofBody : Option (List Char) → Json
  | some s => string (String.ofList s)
  | none => malformed

/-- The fields of an object; a key that denotes nothing spoils the object. -/
def joinField (key : Option (List Char)) (value : Json) : Json → Json
  | object fields =>
    match key with
    | some k => object ((String.ofList k, value) :: fields)
    | none => malformed
  | _ => malformed

mutual

/-- A value at the front; no blanks before it. -/
def readValue (cs : List Char) : Read Json cs.length :=
  match cs with
  | [] => none
  | '"' :: rest => do
    let ⟨(s, rest'), h⟩ ← stringBody rest
    some ⟨(ofBody s, rest'), Nat.lt_succ_of_lt h⟩
  | '[' :: rest =>
    have hb := length_skipBlanks_le rest
    match hs : skipBlanks rest with
    | ']' :: rest' => some ⟨(array [], rest'), by simp only [hs, List.length_cons] at *; omega⟩
    | _ => do
      let ⟨(items, rest'), h⟩ ← readItems (skipBlanks rest)
      some ⟨(array items, rest'), by simp only [List.length_cons] at *; omega⟩
  | '{' :: rest =>
    have hb := length_skipBlanks_le rest
    match hs : skipBlanks rest with
    | '}' :: rest' => some ⟨(object [], rest'), by simp only [hs, List.length_cons] at *; omega⟩
    | _ => do
      let ⟨(value, rest'), h⟩ ← readFields (skipBlanks rest)
      some ⟨(value, rest'), by simp only [List.length_cons] at *; omega⟩
  | 't' :: rest => shorter _ ((word? ['r', 'u', 'e'] rest).map (bool true, ·))
  | 'f' :: rest => shorter _ ((word? ['a', 'l', 's', 'e'] rest).map (bool false, ·))
  | 'n' :: rest => shorter _ ((word? ['u', 'l', 'l'] rest).map (null, ·))
  | cs => shorter _ ((literal? cs).map fun (l, rest) => (number (String.ofList l), rest))
termination_by (cs.length, 0)

/-- The items of an array up to its closing bracket. -/
def readItems (cs : List Char) : Read (List Json) cs.length := do
  let ⟨(item, rest), h⟩ ← readValue cs
  have hb := length_skipBlanks_le rest
  match hs : skipBlanks rest with
  | ']' :: rest' =>
    some ⟨([item], rest'), by simp only [hs, List.length_cons] at *; omega⟩
  | ',' :: rest' =>
    have hc := length_skipBlanks_le rest'
    have : (skipBlanks rest').length < cs.length := by
      simp only [hs, List.length_cons] at *; omega
    let ⟨(items, rest''), h'⟩ ← readItems (skipBlanks rest')
    some ⟨(item :: items, rest''), by simp only at *; omega⟩
  | _ => none
termination_by (cs.length, 1)

/-- The fields of an object up to its closing brace. -/
def readFields (cs : List Char) : Read Json cs.length :=
  match cs with
  | '"' :: body => do
    let ⟨(key, rest), h⟩ ← stringBody body
    have h : rest.length < body.length := h
    have hb := length_skipBlanks_le rest
    match hs : skipBlanks rest with
    | ':' :: rest' =>
      have hv := length_skipBlanks_le rest'
      have hlt : (skipBlanks rest').length < body.length := by
        simp only [hs, List.length_cons] at hb; omega
      let ⟨(value, after), h'⟩ ← readValue (skipBlanks rest')
      have h' : after.length < (skipBlanks rest').length := h'
      have ha := length_skipBlanks_le after
      match ht : skipBlanks after with
      | '}' :: after' =>
        some ⟨(joinField key value (object []), after'), by
          simp only [ht, List.length_cons] at *; omega⟩
      | ',' :: after' =>
        have hc := length_skipBlanks_le after'
        have hlt' : (skipBlanks after').length < body.length := by
          simp only [ht, List.length_cons] at ha; omega
        let ⟨(others, after''), h''⟩ ← readFields (skipBlanks after')
        some ⟨(joinField key value others, after''), by simp only [List.length_cons] at *; omega⟩
      | _ => none
    | _ => none
  | _ => none
termination_by (cs.length, 1)

end

/-- The value that a whole text writes. -/
def read? (text : String) : Option Json := do
  let ⟨(value, rest), _⟩ ← readValue (skipBlanks text.toList)
  if skipBlanks rest = [] then some value else none

end FormulaNet.Json

import FormulaNet.Error
import FormulaNet.Text.Classes
import FormulaNet.Vocabulary

/-!
# Reading tokens

A formula is read in three passes.  `scan` finds numbers, identifiers and marks without knowing any
symbol.  `splitWord` breaks an identifier that is no word of the vocabulary into words, numbers and single
letters, with signs of multiplication between them.  `insertProducts` puts a sign of multiplication
between neighbours that can only mean a product, such as a number and a symbol; a function name before an
open bracket is a call and stays.
-/

namespace FormulaNet.Token

open Text

/-! ## Scanning -/

def startsWithDigit : List Char → Bool
  | [] => false
  | c :: _ => c.isDigit

/-- Takes what continues a number: digits, one point, and an exponent mark where digits follow it,
perhaps after a sign. -/
def takeNumber (pointSeen : Bool) : List Char → List Char × List Char
  | [] => ([], [])
  | c :: cs =>
    if c.isDigit then ((takeNumber pointSeen cs).map (c :: ·) id)
    else if c = '.' ∧ pointSeen = false then ((takeNumber true cs).map (c :: ·) id)
    else if c = 'e' ∨ c = 'E' then
      match cs with
      | [] => ([], [c])
      | d :: ds =>
        if d.isDigit then ((takeNumber pointSeen (d :: ds)).map (c :: ·) id)
        else if (d = '+' ∨ d = '-') ∧ startsWithDigit ds then
          ((takeNumber pointSeen ds).map (fun w => c :: d :: w) id)
        else ([], c :: d :: ds)
    else ([], c :: cs)

theorem takeNumber_append (p : Bool) (cs : List Char) :
    (takeNumber p cs).1 ++ (takeNumber p cs).2 = cs := by
  fun_induction takeNumber p cs <;> simp_all

theorem length_takeNumber_le (p : Bool) (cs : List Char) :
    (takeNumber p cs).2.length ≤ cs.length := by
  have h := congrArg List.length (takeNumber_append p cs)
  simp only [List.length_append] at h
  omega

/-- A number begins with a digit, or with a point before one. -/
def startsNumber (c : Char) (rest : List Char) : Bool :=
  c.isDigit || (c = '.' && startsWithDigit rest)

def startsWord (c : Char) : Bool := isAlphabetic c || c = '_'

def continuesWord (c : Char) : Bool := isAlphanumeric c || c = '_'

/-- A mark that begins with the character: its kind, its text, and how many of the characters after the
first belong to it.  Square brackets are read as round ones, a doubled star as a power, and a doubled sign
of equality as a single one. -/
def mark? (c : Char) (rest : List Char) : Option (Kind × String × Nat) :=
  match c with
  | '(' | '[' => some (.openBracket, "(", 0)
  | ')' | ']' => some (.closeBracket, ")", 0)
  | ',' => some (.comma, ",", 0)
  | '+' => some (.plus, "+", 0)
  | '-' => some (.minus, "-", 0)
  | '/' => some (.slash, "/", 0)
  | '^' => some (.caret, "^", 0)
  | '*' => if rest.head? = some '*' then some (.caret, "**", 1) else some (.star, "*", 0)
  | '=' => some (.equals, "=", if rest.head? = some '=' then 1 else 0)
  | _ => none

theorem length_dropWhile_le (p : Char → Bool) (cs : List Char) :
    (cs.dropWhile p).length ≤ cs.length :=
  (List.dropWhile_suffix p).sublist.length_le

/-- The tokens of a text that begins at a position. -/
def scan (position : Nat) : List Char → Except Error (List Token)
  | [] => .ok [⟨.stop, position, position, ""⟩]
  | c :: cs =>
    if isBlank c then scan (position + c.utf8Size) cs
    else if startsNumber c cs then
      let word := c :: (takeNumber (c = '.') cs).1
      let next := position + utf8Length word
      (scan next (takeNumber (c = '.') cs).2).map (⟨.number, position, next, String.ofList word⟩ :: ·)
    else if startsWord c then
      let word := c :: cs.takeWhile continuesWord
      let next := position + utf8Length word
      (scan next (cs.dropWhile continuesWord)).map
        (⟨.identifier, position, next, String.ofList word⟩ :: ·)
    else
      match mark? c cs with
      | some (kind, text, more) =>
        (scan (position + 1 + more) (cs.drop more)).map
          (⟨kind, position, position + text.utf8ByteSize, text⟩ :: ·)
      | none => .error (.syntaxError position (.character c))
termination_by cs => cs.length
decreasing_by
  · simp
  · exact Nat.lt_succ_of_le (length_takeNumber_le _ _)
  · exact Nat.lt_succ_of_le (length_dropWhile_le _ _)
  · simp only [List.length_drop, List.length_cons]; omega

/-! ## Splitting words -/

/-- The first piece of a word: the longest known word, else a run of digits, else one letter.  The number
says how many characters beyond the first belong to the piece. -/
def firstPiece (v : Vocabulary) (c : Char) (cs : List Char) : Kind × Nat :=
  match v.longestWord (c :: cs) with
  | n + 1 => (.identifier, n)
  | 0 => if c.isDigit then (.number, (cs.takeWhile Char.isDigit).length) else (.identifier, 0)

/-- The pieces of a word that begins at a position, without the signs between them. -/
def pieces (v : Vocabulary) (position : Nat) : List Char → List Token
  | [] => []
  | c :: cs =>
    let (kind, more) := firstPiece v c cs
    let piece := c :: cs.take more
    let next := position + utf8Length piece
    ⟨kind, position, next, String.ofList piece⟩ :: pieces v next (cs.drop more)
termination_by cs => cs.length
decreasing_by simp only [List.length_drop, List.length_cons]; omega

/-- The pieces of a word with signs of multiplication between them. -/
def splitWord (v : Vocabulary) (t : Token) : List Token :=
  match pieces v t.start t.text.toList with
  | [] => []
  | first :: others => first :: others.flatMap fun p => [times p.start, p]

/-- Breaks up the identifiers that are not known words. -/
def splitWords (v : Vocabulary) (ts : List Token) : List Token :=
  ts.flatMap fun t => if t.kind = .identifier ∧ !v.contains t.text then splitWord v t else [t]

/-! ## Implied products -/

/-- A function name and the bracket of its argument. -/
def isCall (t u : Token) : Bool :=
  t.kind = .identifier && u.kind = .openBracket && (Function.ofName? t.text).isSome

/-- Whether two neighbours are the operands of a product without a sign. -/
def impliesProduct (t u : Token) : Bool := t.endsOperand && u.startsOperand && !isCall t u

def insertProducts : List Token → List Token
  | [] => []
  | [t] => [t]
  | t :: u :: ts =>
    if impliesProduct t u then t :: times u.start :: insertProducts (u :: ts)
    else t :: insertProducts (u :: ts)

/-- The tokens of a formula in plain notation. -/
def tokenize (v : Vocabulary) (text : String) : Except Error (List Token) :=
  (scan 0 text.toList).map fun ts => insertProducts (splitWords v ts)

@[simp] theorem insertProducts_nil : insertProducts [] = [] := rfl
@[simp] theorem insertProducts_singleton (t : Token) : insertProducts [t] = [t] := rfl

end FormulaNet.Token

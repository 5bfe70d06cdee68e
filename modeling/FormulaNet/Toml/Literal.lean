import FormulaNet.Decimal.Binary64
import FormulaNet.Text.Reading
import FormulaNet.Toml.Basic

/-!
# TOML values without parts

Strings come in four kinds: with escapes or without, on one line or on several.  Numbers, dates and the
two words for truth are runs of characters up to the next blank, comment or bracket, and are recognised
as a whole.
-/

namespace FormulaNet.Toml

open Text

/-! ## Blanks, line ends and comments -/

def isBlank (c : Char) : Bool := c = ' ' || c = '\t'

def skipBlanks (cs : List Char) : List Char := cs.dropWhile isBlank

/-- The end of a line, with or without a carriage return. -/
def newline? : List Char → Option (List Char)
  | '\n' :: rest | '\r' :: '\n' :: rest => some rest
  | _ => none

/-- The characters of comments and, but for their quotes, of strings: tabs, and all but control
characters. -/
def isPlain (c : Char) : Bool := c = '\t' || (' ' ≤ c && c ≠ '\x7f')

/-- What follows a comment at the front, if there is one. -/
def skipComment : List Char → List Char
  | '#' :: rest => rest.dropWhile isPlain
  | cs => cs

/-- The end of a line or of the text, after blanks and a comment. -/
def lineEnd? (cs : List Char) : Option (List Char) :=
  match skipComment (skipBlanks cs) with
  | [] => some []
  | rest => newline? rest

/-- One line end or blank, or a comment up to the end of its line. -/
def gap : Reader Unit := fun cs =>
  match cs with
  | ' ' :: rest | '\t' :: rest => some ((), rest)
  | cs => (newline? (skipComment cs)).map ((), ·)

/-- What follows blanks, line ends and comments. -/
def skipGaps (cs : List Char) : List Char := (repeated gap cs).2

/-! ## Strings -/

/-- The character of an escape, read after its backslash. -/
def escape : Reader Char
  | 'b' :: rest => some ('\x08', rest)
  | 't' :: rest => some ('\t', rest)
  | 'n' :: rest => some ('\n', rest)
  | 'f' :: rest => some ('\x0c', rest)
  | 'r' :: rest => some ('\r', rest)
  | '"' :: rest => some ('"', rest)
  | '\\' :: rest => some ('\\', rest)
  | 'u' :: rest => codePoint 4 rest
  | 'U' :: rest => codePoint 8 rest
  | _ => none
where
  /-- The character whose number is written with so many hexadecimal digits. -/
  codePoint (length : Nat) : Reader Char := fun cs =>
    if cs.length < length then none
    else do
      let n ← hex? (cs.take length)
      if n.isValidChar then some (Char.ofNat n, cs.drop length) else none

/-- Part of a string on one line; a backslash starts an escape unless the string is literal. -/
def linePart (quote : Char) : Reader (List Char)
  | [] => none
  | c :: rest =>
    if c = quote then none
    else if c = '\\' ∧ quote = '"' then (escape rest).map fun (c, rest) => ([c], rest)
    else if isPlain c then some ([c], rest)
    else none

/-- Part of a string on several lines.  Here quotes stand for themselves unless three come together, and
a backslash at the end of a line stands for nothing and takes the following blanks and line ends along. -/
def blockPart (quote : Char) : Reader (List Char) := fun cs =>
  match newline? cs with
  | some rest => some (['\n'], rest)
  | none =>
    match cs with
    | [] => none
    | c :: rest =>
      if c = quote then
        if [quote, quote].isPrefixOf rest then none else some ([c], rest)
      else if c = '\\' ∧ quote = '"' ∧ (newline? (skipBlanks rest)).isSome then
        some ([], (repeated lineBreak rest).2)
      else linePart quote cs
where
  /-- A blank or a line end. -/
  lineBreak : Reader Unit := fun cs =>
    match cs with
    | ' ' :: rest | '\t' :: rest => some ((), rest)
    | cs => (newline? cs).map ((), ·)

/-- A string on several lines, after its three quotes.  A line end right there is passed over; one or two
quotes right before the closing three belong to the string. -/
def block (quote : Char) : Reader String := fun cs =>
  let (parts, rest) := repeated (blockPart quote) ((newline? cs).getD cs)
  let (quotes, rest) := run (· = quote) rest
  if 3 ≤ quotes.length ∧ quotes.length ≤ 5 then
    some (String.ofList (parts.flatten ++ quotes.drop 3), rest)
  else none

/-- A string on one line, after its quote. -/
def line (quote : Char) : Reader String := fun cs => do
  let (parts, rest) := repeated (linePart quote) cs
  let rest ← char quote rest
  some (String.ofList parts.flatten, rest)

/-- A string on one line. -/
def lineString : Reader String
  | '"' :: rest => line '"' rest
  | '\'' :: rest => line '\'' rest
  | _ => none

/-- A string of any kind. -/
def anyString : Reader String
  | '"' :: '"' :: '"' :: rest => block '"' rest
  | '\'' :: '\'' :: '\'' :: rest => block '\'' rest
  | cs => lineString cs

/-! ## Numbers -/

/-- Digits, without the single underscores that may stand between any two of them. -/
def ungroup? (isDigit : Char → Bool) : List Char → Option (List Char)
  | [] => none
  | [d] => if isDigit d then some [d] else none
  | d :: '_' :: rest => if isDigit d then (ungroup? isDigit rest).map (d :: ·) else none
  | d :: rest => if isDigit d then (ungroup? isDigit rest).map (d :: ·) else none

/-- Decimal digits that do not start with a needless zero. -/
def whole? (cs : List Char) : Option (List Char) := do
  match ← ungroup? Char.isDigit cs with
  | '0' :: _ :: _ => none
  | ds => some ds

/-- Whole numbers have 64 bits, one of them for the sign. -/
def inRange? (n : Int) : Option Toml :=
  let bound : Int := Decimal.twoTo 63
  if -bound ≤ n ∧ n < bound then some (integer n) else none

/-- A whole number to a base up to sixteen. -/
def based? (base : Nat) (cs : List Char) : Option Toml := do
  let ds ← ungroup? (fun c => (hexDigit? c).any (· < base)) cs
  let n ← ds.foldlM (fun n c => (hexDigit? c).map (base * n + ·)) 0
  inRange? n

/-- A whole number: decimal with or without a sign, or with the mark of another base. -/
def integer? : List Char → Option Toml
  | '0' :: 'x' :: cs => based? 16 cs
  | '0' :: 'o' :: cs => based? 8 cs
  | '0' :: 'b' :: cs => based? 2 cs
  | cs => do
    let (negative, cs) := Numeral.takeSign cs
    let n := Numeral.ofDigits (← whole? cs)
    inRange? (if negative then -n else n)

/-- The digits after a point, none if there is no point. -/
def fraction? : List Char → Option (List Char)
  | [] => some []
  | '.' :: cs => ungroup? Char.isDigit cs
  | _ => none

/-- The power of ten after its mark, zero if there is no mark. -/
def power? : List Char → Option Int
  | [] => some 0
  | _ :: cs => do
    let (negative, cs) := Numeral.takeSign cs
    let n := Numeral.ofDigits (← ungroup? Char.isDigit cs)
    some (if negative then -n else n)

/-- A double, which shows a point or a power of ten.  A number that is too large is refused, unless it is
negative. -/
def double? (cs : List Char) : Option Toml :=
  let (negative, cs) := Numeral.takeSign cs
  if cs = ['i', 'n', 'f'] then some (real (Numeral.infinity negative).toFloat)
  else if cs = ['n', 'a', 'n'] then some (real Numeral.undefined.toFloat)
  else do
    let (mantissa, power) := run (fun c => c ≠ 'e' && c ≠ 'E') cs
    let (whole, fraction) := run (· ≠ '.') mantissa
    if fraction = [] ∧ power = [] then none
    else
      let whole ← whole? whole
      let fraction ← fraction? fraction
      let power ← power? power
      let x := (Numeral.decimal negative (Numeral.ofDigits (whole ++ fraction))
        (power - fraction.length)).toFloat
      if x.isInf ∧ ¬ negative then none else some (real x)

/-! ## Dates and times -/

/-- A number of two digits within bounds. -/
def twoDigits (low high : Nat) : Reader Nat
  | c :: d :: rest =>
    let n := Numeral.ofDigits [c, d]
    if c.isDigit ∧ d.isDigit ∧ low ≤ n ∧ n ≤ high then some (n, rest) else none
  | _ => none

def daysIn (year month : Nat) : Nat :=
  if month = 2 then if year % 4 = 0 ∧ (year % 100 ≠ 0 ∨ year % 400 = 0) then 29 else 28
  else if month ∈ [4, 6, 9, 11] then 30
  else 31

/-- What follows a date. -/
def date? (cs : List Char) : Option (List Char) := do
  let (year, rest) := run Char.isDigit cs
  if year.length ≠ 4 then none
  else
    let (month, rest) ← twoDigits 1 12 (← char '-' rest)
    let (_, rest) ← twoDigits 1 (daysIn (Numeral.ofDigits year) month) (← char '-' rest)
    some rest

/-- What follows the fraction of a second. -/
def secondFraction? (cs : List Char) : Option (List Char) :=
  match cs with
  | '.' :: rest =>
    let (digits, rest) := run Char.isDigit rest
    if digits = [] then none else some rest
  | cs => some cs

/-- What follows a time of day; it may have a leap second. -/
def time? (cs : List Char) : Option (List Char) := do
  let (_, rest) ← twoDigits 0 23 cs
  let (_, rest) ← twoDigits 0 59 (← char ':' rest)
  let (_, rest) ← twoDigits 0 60 (← char ':' rest)
  secondFraction? rest

/-- What follows an offset from universal time, if there is one. -/
def offset? (cs : List Char) : Option (List Char) :=
  match cs with
  | [] => some []
  | c :: rest =>
    if c = 'Z' ∨ c = 'z' then some rest
    else if c = '+' ∨ c = '-' then do
      let (_, rest) ← twoDigits 0 23 rest
      let (_, rest) ← twoDigits 0 59 (← char ':' rest)
      some rest
    else none

/-- Whether a run of characters is a date, a date with a time, or a time. -/
def isMoment (cs : List Char) : Bool :=
  match date? cs with
  | some [] => true
  | some (c :: rest) =>
    (c = 'T' || c = 't' || c = ' ') && ((time? rest).bind offset?) == some []
  | none => time? cs == some []

/-! ## Words -/

def isWordChar (c : Char) : Bool := !(c ∈ [' ', '\t', '\n', '\r', '#', ',', ']', '\x7d'])

/-- The characters of a number, a date or a word for truth.  One blank may separate a date from its
time. -/
def word (cs : List Char) : List Char × List Char :=
  let (w, rest) := run isWordChar cs
  match rest with
  | ' ' :: d :: _ =>
    if date? w = some [] ∧ d.isDigit then
      let (v, rest) := run isWordChar rest.tail
      (w ++ ' ' :: v, rest)
    else (w, rest)
  | _ => (w, rest)

/-- What a run of characters denotes. -/
def ofWord? (cs : List Char) : Option Toml :=
  if cs = ['t', 'r', 'u', 'e'] then some (bool true)
  else if cs = ['f', 'a', 'l', 's', 'e'] then some (bool false)
  else if isMoment cs then some (moment (String.ofList cs))
  else (integer? cs).or (double? cs)

/-- A value without parts. -/
def literal : Reader Toml := fun cs =>
  match cs with
  | '"' :: _ | '\'' :: _ => (anyString cs).map fun (s, rest) => (string s, rest)
  | cs => (ofWord? (word cs).1).map (·, (word cs).2)

end FormulaNet.Toml

import FormulaNet.Json.Basic

/-!
# Writing JSON text

Two layouts: on one line without blanks, and on many lines with an indentation of two blanks.  An array
or object without members is written on one line in both.
-/

namespace FormulaNet.Json

def hexDigit (n : Nat) : Char :=
  if n < 10 then Char.ofNat ('0'.toNat + n) else Char.ofNat ('a'.toNat + (n - 10))

/-- A character inside a string: quotes, backslashes and control characters are escaped. -/
def escape (c : Char) : List Char :=
  match c with
  | '"' => ['\\', '"']
  | '\\' => ['\\', '\\']
  | '\x08' => ['\\', 'b']
  | '\x0c' => ['\\', 'f']
  | '\n' => ['\\', 'n']
  | '\r' => ['\\', 'r']
  | '\t' => ['\\', 't']
  | c =>
    if c.toNat < 0x20 then ['\\', 'u', '0', '0', hexDigit (c.toNat / 16), hexDigit (c.toNat % 16)]
    else [c]

def quoted (s : String) : List Char := '"' :: (s.toList.flatMap escape ++ ['"'])

/-- What stands between the members of a container: nothing, or a new line and the indentation. -/
inductive Layout where
  | oneLine
  | indented (depth : Nat)

namespace Layout

def inner : Layout → Layout
  | oneLine => oneLine
  | indented depth => indented (depth + 1)

/-- The start of a new line. -/
def lineStart : Layout → List Char
  | oneLine => []
  | indented depth => '\n' :: List.replicate (2 * depth) ' '

/-- What follows the name of a field. -/
def colon : Layout → List Char
  | oneLine => [':']
  | indented _ => [':', ' ']

end Layout

mutual

def writeValue (layout : Layout) : Json → List Char
  | null | malformed => "null".toList
  | bool b => (if b then "true" else "false").toList
  | number literal => literal.toList
  | string s => quoted s
  | array [] => ['[', ']']
  | array (item :: items) =>
    '[' :: (layout.inner.lineStart ++ writeValue layout.inner item ++ writeItems layout.inner items ++
      layout.lineStart ++ [']'])
  | object [] => ['\x7b', '\x7d']
  | object ((key, value) :: fields) =>
    '\x7b' :: (layout.inner.lineStart ++ quoted key ++ layout.inner.colon ++
      writeValue layout.inner value ++ writeFields layout.inner fields ++ layout.lineStart ++ ['\x7d'])

/-- The items after the first. -/
def writeItems (layout : Layout) : List Json → List Char
  | [] => []
  | item :: items => ',' :: (layout.lineStart ++ writeValue layout item ++ writeItems layout items)

/-- The fields after the first. -/
def writeFields (layout : Layout) : List (String × Json) → List Char
  | [] => []
  | (key, value) :: fields =>
    ',' :: (layout.lineStart ++ quoted key ++ layout.colon ++ writeValue layout value ++
      writeFields layout fields)

end

def compact (j : Json) : String := String.ofList (writeValue .oneLine j)

def pretty (j : Json) : String := String.ofList (writeValue (.indented 0) j)

end FormulaNet.Json

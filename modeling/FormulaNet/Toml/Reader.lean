import FormulaNet.Toml.Literal

/-!
# Reading TOML text

A text is a list of statements, one a line: a header, a doubly bracketed header, or a pair of a dotted key
and a value.  Reading finds the statements; carrying them out in order gives the table of the document.
-/

namespace FormulaNet.Toml

open Text

/-- A key of several parts: the way to a table, and the last part. -/
structure Key where
  path : List String
  last : String
  deriving DecidableEq, Repr

inductive Statement where
  | blank
  | header (key : Key)
  | nextHeader (key : Key)
  | pair (key : Key) (value : Toml)

/-- How many parts a key may have, and how deep values may be nested. -/
def maxDepth : Nat := 79

/-! ## Keys -/

def isBareChar (c : Char) : Bool := c.isAlphanum || c = '-' || c = '_'

/-- One part of a key, with the blanks around it. -/
def keyPart : Reader String := fun cs =>
  let cs := skipBlanks cs
  match lineString cs with
  | some (s, rest) => some (s, skipBlanks rest)
  | none =>
    let (bare, rest) := run isBareChar cs
    if bare = [] then none else some (String.ofList bare, skipBlanks rest)

def key : Reader Key := fun cs => do
  let (parts, rest) ← separated '.' keyPart cs
  let last ← parts.getLast?
  if parts.length ≤ maxDepth then some (⟨parts.dropLast, last⟩, rest) else none

/-! ## Values -/

/-- A pair, where a rule reads values. -/
def pair (value : Reader Toml) : Reader (Key × Toml) := fun cs => do
  let (k, rest) ← key cs
  let (v, rest) ← value (skipBlanks (← char '=' rest))
  some ((k, v), skipBlanks rest)

/-- The items of an array after its opening bracket; a comma may follow the last one. -/
def array? (value : Reader Toml) : Reader Toml := fun cs =>
  let item : Reader Toml := fun cs => (value (skipGaps cs)).map fun (v, rest) => (v, skipGaps rest)
  match separated ',' item cs with
  | none => (char ']' (skipGaps cs)).map (array [], ·)
  | some (items, rest) =>
    let rest := (char ',' rest).getD rest
    (char ']' (skipGaps rest)).map (array items, ·)

/-- The table that pairs between braces lay down. -/
def ofPairs (pairs : List (Key × Toml)) : Option Entries :=
  pairs.foldlM (fun entries (k, v) => assign k.path k.last v entries) []

/-- The pairs of a table after its opening brace, all on one line. -/
def closedTable (value : Reader Toml) : Reader Toml := fun cs => do
  let (pairs, rest) := (separated ',' (pair value) cs).getD ([], cs)
  let entries ← ofPairs pairs
  let rest ← char '\x7d' (skipBlanks rest)
  some (table .closed entries, rest)

/-- A value with at most so many levels of nesting. -/
def value : Nat → Reader Toml
  | 0 => literal
  | depth + 1 => fun cs =>
    match cs with
    | '[' :: rest => array? (value depth) rest
    | '\x7b' :: rest => closedTable (value depth) rest
    | cs => literal cs

/-! ## Statements -/

/-- A statement without the end of its line. -/
def statement : Reader Statement := fun cs =>
  match skipBlanks cs with
  | [] => some (.blank, [])
  | '[' :: '[' :: rest => do
    let (k, rest) ← key rest
    let rest ← char ']' (← char ']' rest)
    some (.nextHeader k, rest)
  | '[' :: rest => do
    let (k, rest) ← key rest
    let rest ← char ']' rest
    some (.header k, rest)
  | c :: rest =>
    if c = '#' ∨ c = '\n' ∨ c = '\r' then some (.blank, c :: rest)
    else (pair (value maxDepth) (c :: rest)).map fun ((k, v), rest) => (.pair k v, rest)

/-- A statement with the end of its line. -/
def fullLine : Reader Statement := fun cs => do
  let (s, rest) ← statement cs
  some (s, ← lineEnd? rest)

/-- The statements of a text.  A mark of the byte order may come first. -/
def statements? (cs : List Char) : Option (List Statement) :=
  match repeated fullLine ((char '\uFEFF' cs).getD cs) with
  | (statements, []) => some statements
  | _ => none

/-- Carries out statements from the table of a header on. -/
def carryOut (header : List String) (entries : Entries) : List Statement → Option Entries
  | [] => some entries
  | .blank :: rest => carryOut header entries rest
  | .header k :: rest => do carryOut (k.path ++ [k.last]) (← declare k.path k.last entries) rest
  | .nextHeader k :: rest => do carryOut (k.path ++ [k.last]) (← declareNext k.path k.last entries) rest
  | .pair k v :: rest => do carryOut header (← assignUnder header k.path k.last v entries) rest

/-- The document that a text writes. -/
def read? (text : String) : Option Toml := do
  let entries ← carryOut [] [] (← statements? text.toList)
  some (table .declared entries)

end FormulaNet.Toml

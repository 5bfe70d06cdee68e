/-!
# Readers of text

A reader takes something from the front of a text and returns it with the characters it left, or refuses.
Repetition is total for every reader: it ends where the reader leaves as much as it found.
-/

namespace FormulaNet.Text

/-- A way to read the front of a text. -/
abbrev Reader (α : Type) := List Char → Option (α × List Char)

variable {α : Type}

/-- Applies a reader as often as it reads something. -/
def repeated (read : Reader α) (cs : List Char) : List α × List Char :=
  match read cs with
  | none => ([], cs)
  | some (a, rest) =>
    if rest.length < cs.length then
      let (as, rest) := repeated read rest
      (a :: as, rest)
    else ([], cs)
termination_by cs.length

/-- Applies a reader at least once and again after every separator, as often as it reads something. -/
def separated (separator : Char) (read : Reader α) : Reader (List α) := fun cs =>
  match read cs with
  | none => none
  | some (a, rest) =>
    let (as, rest) := repeated (fun
      | c :: cs => if c = separator then read cs else none
      | [] => none) rest
    some (a :: as, rest)

/-- Takes one certain character. -/
def char (c : Char) : List Char → Option (List Char)
  | d :: cs => if d = c then some cs else none
  | [] => none

/-- Takes the characters of a class at the front. -/
def run (isMember : Char → Bool) (cs : List Char) : List Char × List Char :=
  (cs.takeWhile isMember, cs.dropWhile isMember)

/-! ## Hexadecimal digits -/

def hexDigit? (c : Char) : Option Nat :=
  if c.isDigit then some (c.toNat - '0'.toNat)
  else if 'a' ≤ c ∧ c ≤ 'f' then some (c.toNat - 'a'.toNat + 10)
  else if 'A' ≤ c ∧ c ≤ 'F' then some (c.toNat - 'A'.toNat + 10)
  else none

/-- The number that hexadecimal digits write. -/
def hex? (cs : List Char) : Option Nat :=
  cs.foldlM (fun n c => (hexDigit? c).map (16 * n + ·)) 0

end FormulaNet.Text

import FormulaNet.Text.Classes

/-!
# One notation for formulas

The same symbol is written in many ways: `ΣF`, `F合`, `F_net` and `F` are all the net force, `v₀` and `v_0`
the initial velocity.  `normalize` brings formulas and symbols to one plain notation: names of the net
quantities become the bare symbol, glyphs become ASCII, superscripts become powers, and subscripts and
letter superscripts become part of the symbol.
-/

namespace FormulaNet.Notation

open Text

/-- Names of net quantities.  They are put in place one after the other, longer names first. -/
def aliases : List (List Char × List Char) := [
  (['F', '_', 'n', 'e', 't'], ['F']), (['F', 'n', 'e', 't'], ['F']),
  (['F', '_', '合'], ['F']), (['F', '合'], ['F']),
  (['Σ', 'F'], ['F']), (['∑', 'F'], ['F']),
  (['Σ', 'v'], ['v']), (['∑', 'v'], ['v']),
  (['Σ', 'a'], ['a']), (['∑', 'a'], ['a']),
  (['Σ', 'E'], ['E']), (['∑', 'E'], ['E'])]

def replaceAliases (cs : List Char) : List Char :=
  aliases.foldl (fun cs (old, new) => replaceAll old new cs) cs

/-- What a glyph stands for; a sign of summation that is left over means the total and is dropped. -/
def glyph? : Char → Option (List Char)
  | 'Σ' | '∑' => some []
  | '·' | '⋅' | '×' => some ['*']
  | '÷' => some ['/']
  | '−' | '–' => some ['-']
  | 'π' => some ['p', 'i']
  | '½' => some ['(', '1', '/', '2', ')']
  | '√' => some ['s', 'q', 'r', 't']
  | '₀' => some ['0']
  | '₁' => some ['1']
  | '₂' => some ['2']
  | '₃' => some ['3']
  | '₄' => some ['4']
  | '₅' => some ['5']
  | '₆' => some ['6']
  | '₇' => some ['7']
  | '₈' => some ['8']
  | '₉' => some ['9']
  | 'ₐ' => some ['a']
  | 'ₑ' => some ['e']
  | 'ₒ' => some ['o']
  | 'ₓ' => some ['x']
  | 'ₙ' => some ['n']
  | 'ₘ' => some ['m']
  | 'ₜ' => some ['t']
  | 'ₖ' => some ['k']
  | 'ₚ' => some ['p']
  | 'ₛ' => some ['s']
  | 'ₕ' => some ['h']
  | 'α' => some "alpha".toList
  | 'β' => some "beta".toList
  | 'γ' => some "gamma".toList
  | 'δ' => some "delta".toList
  | 'ε' => some "epsilon".toList
  | 'η' => some "eta".toList
  | 'θ' => some "theta".toList
  | 'κ' => some "kappa".toList
  | 'λ' => some "lambda".toList
  | 'μ' => some "mu".toList
  | 'ν' => some "nu".toList
  | 'ρ' => some "rho".toList
  | 'σ' => some "sigma".toList
  | 'τ' => some "tau".toList
  | 'φ' => some "phi".toList
  | 'ω' => some "omega".toList
  | 'Δ' => some "Delta".toList
  | 'Ω' => some "Omega".toList
  | 'Φ' => some "Phi".toList
  | _ => none

/-- The plain form of a superscript digit or minus. -/
def superscript? : Char → Option Char
  | '⁰' => some '0'
  | '¹' => some '1'
  | '²' => some '2'
  | '³' => some '3'
  | '⁴' => some '4'
  | '⁵' => some '5'
  | '⁶' => some '6'
  | '⁷' => some '7'
  | '⁸' => some '8'
  | '⁹' => some '9'
  | '⁻' => some '-'
  | _ => none

/-- The power that a run of superscripts writes: a single one needs no brackets. -/
def power : List Char → List Char
  | [] => []
  | [c] => ['^', c]
  | cs => '^' :: '(' :: (cs ++ [')'])

/-- Puts plain characters for glyphs.  `run` holds the superscripts just read. -/
def replaceGlyphs (run : List Char) : List Char → List Char
  | [] => power run
  | c :: cs =>
    match superscript? c with
    | some d => replaceGlyphs (run ++ [d]) cs
    | none => power run ++ ((glyph? c).getD [c] ++ replaceGlyphs [] cs)

/-- Whether the text goes on with a character of the class. -/
def goesOn (class_ : Char → Bool) : List Char → Bool
  | [] => false
  | c :: _ => class_ c

/-- Drops an underscore between a letter and a letter or number: it marks a subscript.  `afterLetter`
tells whether a letter stands directly before. -/
def joinSubscripts (afterLetter : Bool) : List Char → List Char
  | [] => []
  | c :: cs =>
    if c = '_' ∧ afterLetter ∧ goesOn isAlphanumeric cs then joinSubscripts false cs
    else c :: joinSubscripts (isAlphabetic c) cs

/-- Drops a caret between two plain letters: it marks a superscript that is part of the symbol.  After
the constant `pi` it is a power and stays.  `letters` holds the plain letters directly before, the last
one first. -/
def joinSuperscripts (letters : List Char) : List Char → List Char
  | [] => []
  | c :: cs =>
    if c = '^' ∧ letters ≠ [] ∧ goesOn Char.isAlpha cs ∧ letters ≠ ['i', 'p'] then
      joinSuperscripts [] cs
    else c :: joinSuperscripts (if c.isAlpha then c :: letters else []) cs

/-- The plain notation of a text. -/
def normalizeChars (cs : List Char) : List Char :=
  joinSuperscripts [] (joinSubscripts false (replaceGlyphs [] (replaceAliases (trim cs))))

/-- The plain notation of a formula or a single symbol. -/
def normalize (s : String) : String := String.ofList (normalizeChars s.toList)

/-- The number of signs of equality, a doubled one counted once. -/
def countEquals (s : String) : Nat := (replaceAll ['=', '='] ['='] s.toList).count '='

@[simp] theorem normalizeChars_nil : normalizeChars [] = [] := by
  simp [normalizeChars, replaceAliases, aliases, replaceGlyphs, joinSubscripts, joinSuperscripts, power]

@[simp] theorem toList_normalize (s : String) : (normalize s).toList = normalizeChars s.toList := by
  simp [normalize]

end FormulaNet.Notation

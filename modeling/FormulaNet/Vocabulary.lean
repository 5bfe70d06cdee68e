import FormulaNet.Function

/-!
# Vocabularies

The symbols that a formula may use.  A word that is no symbol is read as a product of shorter ones, so a
vocabulary answers two questions: is a word known, and how long is the longest known word at the front of
a text.  The constant `pi` and the names of the functions are always known.
-/

namespace FormulaNet

structure Vocabulary where
  symbols : List String
  empty_notMem : "" ∉ symbols := by simp

namespace Vocabulary

def empty : Vocabulary where
  symbols := []

/-- Adds a symbol; the empty text is none. -/
def insert (v : Vocabulary) (symbol : String) : Vocabulary :=
  if h : symbol = "" then v
  else ⟨symbol :: v.symbols, by simpa [Ne.symm h] using v.empty_notMem⟩

def ofList (symbols : List String) : Vocabulary := symbols.foldl insert empty

/-- A symbol, `pi`, or a name of a function. -/
def contains (v : Vocabulary) (word : String) : Bool :=
  v.symbols.contains word || word = "pi" || (Function.ofName? word).isSome

/-- The words that may stand at the front of a longer one.  Second names of functions are not among
them. -/
def words (v : Vocabulary) : List String := v.symbols ++ "pi" :: Function.all.map Function.name

/-- The length of the longest word at the front of the text; zero if there is none. -/
def longestWord (v : Vocabulary) (cs : List Char) : Nat :=
  ((v.words.filter fun w => w.toList.isPrefixOf cs).map String.length).foldl max 0

@[simp] theorem symbols_empty : empty.symbols = [] := rfl

@[simp] theorem mem_symbols_insert (v : Vocabulary) (s t : String) :
    t ∈ (v.insert s).symbols ↔ (t = s ∧ s ≠ "") ∨ t ∈ v.symbols := by
  by_cases h : s = "" <;> simp [insert, h]

end Vocabulary

end FormulaNet

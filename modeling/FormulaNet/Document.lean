/-!
# Records in documents

Structured text of several formats holds records with named fields.  A decoder of a record asks for its
fields by name, and says what an absent one means.  `Document` is what a format has to offer for that, so
a decoder can be written once for all formats.
-/

namespace FormulaNet

/-- The fields of a record, by name. -/
abbrev Fields (δ : Type) := String → Option δ

namespace Fields

variable {δ α : Type}

def required (fields : Fields δ) (name : String) (decode : δ → Option α) : Option α :=
  (fields name).bind decode

def defaulted (fields : Fields δ) (name : String) (decode : δ → Option α) (default : α) : Option α :=
  match fields name with
  | some d => decode d
  | none => some default

end Fields

/-- A format of structured text whose values are of type `δ`. -/
class Document (δ : Type) where
  /-- The fields of a record with these names, in their order. -/
  fields? : List String → δ → Option (Fields δ)
  natural? : δ → Option Nat
  real? : δ → Option Float
  string? : δ → Option String
  bool? : δ → Option Bool

end FormulaNet

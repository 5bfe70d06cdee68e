import FormulaNet.Decimal.Binary64
import FormulaNet.Document
import FormulaNet.Toml.Basic

/-!
# Records in TOML

A record is a table, or an array that gives its fields in order.  Unknown fields are passed over.  A
number without a fraction serves as a whole number and as a double.
-/

namespace FormulaNet.Toml

/-- The fields of a record with these names.  No record of ours has fields in common with a date. -/
def fields? (names : List String) : Toml → Option (Fields Toml)
  | table _ entries => some fun name => entries.lookup name
  | array items => some fun name => (names.zip items).lookup name
  | tables earlier last =>
    some fun name => (names.zip ((earlier ++ [last]).map (table .declared))).lookup name
  | moment _ => some fun _ => none
  | _ => none

def natural? : Toml → Option Nat
  | integer n => n.toNat?
  | _ => none

def real? : Toml → Option Float
  | real x => some x
  | integer n => some (Numeral.decimal (n < 0) n.natAbs 0).toFloat
  | _ => none

def string? : Toml → Option String
  | string s => some s
  | _ => none

def bool? : Toml → Option Bool
  | bool b => some b
  | _ => none

instance : Document Toml := ⟨fields?, natural?, real?, string?, bool?⟩

end FormulaNet.Toml

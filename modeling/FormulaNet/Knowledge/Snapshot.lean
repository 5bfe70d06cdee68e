import FormulaNet.Error
import FormulaNet.Json.Reader
import FormulaNet.Json.Record
import FormulaNet.Json.Writer
import FormulaNet.Knowledge.Basic

/-!
# Snapshots

A snapshot is a complete copy of a knowledge graph.  It is exchanged as JSON text: written with all fields
in a fixed order, read with defaults for the fields that may be absent.
-/

namespace FormulaNet

structure Snapshot where
  quantities : List Quantity := []
  constants : List (Constant Float) := []
  formulas : List Formula := []
  deriving Repr

namespace Quantity

def toJson (q : Quantity) : Json := .object [
  ("id", .ofNat q.id), ("name", .string q.name), ("symbol", .string q.symbol), ("unit", .string q.unit),
  ("is_vector", .bool q.isVector), ("description", .string q.description)]

def ofJson? (j : Json) : Option Quantity := do
  let fields ← j.fields? ["id", "name", "symbol", "unit", "is_vector", "description"]
  let id ← fields.required "id" Json.natural?
  let name ← fields.required "name" Json.string?
  let symbol ← fields.required "symbol" Json.string?
  let unit ← fields.required "unit" Json.string?
  let isVector ← fields.defaulted "is_vector" Json.bool? false
  let description ← fields.defaulted "description" Json.string? ""
  some { id, name, symbol, unit, isVector, description }

end Quantity

namespace Constant

def toJson (c : Constant Float) : Json := .object [
  ("id", .ofNat c.id), ("name", .string c.name), ("symbol", .string c.symbol),
  ("value", .ofFloat c.value), ("unit", .string c.unit)]

def ofJson? (j : Json) : Option (Constant Float) := do
  let fields ← j.fields? ["id", "name", "symbol", "value", "unit"]
  let id ← fields.required "id" Json.natural?
  let name ← fields.required "name" Json.string?
  let symbol ← fields.required "symbol" Json.string?
  let value ← fields.required "value" Json.real?
  let unit ← fields.required "unit" Json.string?
  some { id, name, symbol, value, unit }

end Constant

namespace Formula

def toJson (f : Formula) : Json := .object [
  ("id", .ofNat f.id), ("name", .string f.name), ("expression", .string f.expression),
  ("quantities", .array (f.quantities.map .ofNat)), ("constants", .array (f.constants.map .ofNat))]

def ofJson? (j : Json) : Option Formula := do
  let fields ← j.fields? ["id", "name", "expression", "quantities", "constants"]
  let id ← fields.required "id" Json.natural?
  let name ← fields.required "name" Json.string?
  let expression ← fields.required "expression" Json.string?
  let quantities ← fields.required "quantities" (Json.list? Json.natural?)
  let constants ← fields.defaulted "constants" (Json.list? Json.natural?) []
  some { id, name, expression, quantities, constants }

end Formula

namespace Snapshot

def toJson (s : Snapshot) : Json := .object [
  ("quantities", .array (s.quantities.map Quantity.toJson)),
  ("constants", .array (s.constants.map Constant.toJson)),
  ("formulas", .array (s.formulas.map Formula.toJson))]

def ofJson? (j : Json) : Option Snapshot := do
  let fields ← j.fields? ["quantities", "constants", "formulas"]
  let quantities ← fields.defaulted "quantities" (Json.list? Quantity.ofJson?) []
  let constants ← fields.defaulted "constants" (Json.list? Constant.ofJson?) []
  let formulas ← fields.defaulted "formulas" (Json.list? Formula.ofJson?) []
  some { quantities, constants, formulas }

/-- The text of a snapshot, on many lines. -/
def write (s : Snapshot) : String := s.toJson.pretty

/-- The snapshot that a text writes. -/
def read (text : String) : Except Error Snapshot :=
  match (Json.read? text).bind ofJson? with
  | some s => .ok s
  | none => .error .json

end Snapshot

end FormulaNet

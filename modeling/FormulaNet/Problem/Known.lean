import FormulaNet.Json.Record

/-!
# Problems

A problem gives values of some quantities by name and asks for one other.  A known may carry a kind, a
refinement of it and a direction; the kind `force` is the one that matters to the solver.  Problems are
exchanged as JSON.
-/

namespace FormulaNet

/-- A value that a problem gives. -/
structure Known where
  name : String
  value : Float
  unit : String := ""
  kind : Option String := none
  subType : Option String := none
  direction : Option String := none
  deriving Repr

/-- The knowns and the name of the unknown. -/
structure Problem where
  knowns : List Known
  unknown : String
  deriving Repr

namespace Known

/-- The kind of the knowns that are forces. -/
def forceKind : String := "force"

def isForce (k : Known) : Bool := k.kind = some forceKind

def fieldNames : List String := ["name", "value", "unit", "type", "subType", "direction"]

def ofJson? (j : Json) : Option Known := do
  let fields ← j.fields? fieldNames
  let name ← fields.required "name" Json.string?
  let value ← fields.required "value" Json.real?
  let unit ← fields.defaulted "unit" Json.string? ""
  let kind ← fields.optional "type" Json.string?
  let subType ← fields.optional "subType" Json.string?
  let direction ← fields.optional "direction" Json.string?
  some { name, value, unit, kind, subType, direction }

end Known

namespace Problem

def ofJson? (j : Json) : Option Problem := do
  let fields ← j.fields? ["knowns", "unknown"]
  let knowns ← fields.defaulted "knowns" (Json.list? Known.ofJson?) []
  let unknown ← fields.required "unknown" Json.string?
  some { knowns, unknown }

end Problem

end FormulaNet

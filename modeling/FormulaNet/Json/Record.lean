import FormulaNet.Document
import FormulaNet.Json.Basic

/-!
# Records in JSON

A record with named fields is written as an object, or as an array of its fields in order.  Unknown fields
are passed over and a known field may occur once.
-/

namespace FormulaNet

/-- An absent field and a null stand for no value. -/
def Fields.optional {α : Type} (fields : Fields Json) (name : String) (decode : Json → Option α) :
    Option (Option α) :=
  match fields name with
  | some .null | none => some none
  | some j => (decode j).map some

namespace Json

/-- The fields of an object; a field that is looked for may not be repeated. -/
def objectFields? (names : List String) (fields : List (String × Json)) : Option (Fields Json) :=
  if names.all fun name => (fields.map Prod.fst).count name ≤ 1 then
    some fun name => fields.lookup name
  else none

/-- The fields of a record given in order; the last ones may be missing. -/
def arrayFields? (names : List String) (items : List Json) : Option (Fields Json) :=
  if items.length ≤ names.length then some fun name => (names.zip items).lookup name else none

/-- The fields of a record with these names. -/
def fields? (names : List String) : Json → Option (Fields Json)
  | object fields => objectFields? names fields
  | array items => arrayFields? names items
  | _ => none

instance : Document Json := ⟨fields?, natural?, real?, string?, bool?⟩

/-! ## Values that are read before their kind is known

Where the kind of a record depends on one of its fields, all its fields are read first, also those that
are passed over later.  They have to denote something, and may not be nested too deeply. -/

mutual

/-- The levels of nesting. -/
def depth : Json → Nat
  | array items => depthItems items + 1
  | object fields => depthFields fields + 1
  | _ => 0

def depthItems : List Json → Nat
  | [] => 0
  | item :: items => max (depth item) (depthItems items)

def depthFields : List (String × Json) → Nat
  | [] => 0
  | (_, value) :: fields => max (depth value) (depthFields fields)

end

mutual

/-- Whether every string and every number in the value denotes something. -/
def denotes : Json → Bool
  | malformed => false
  | number literal => (number literal).real?.isSome
  | array items => denoteItems items
  | object fields => denoteFields fields
  | _ => true

def denoteItems : List Json → Bool
  | [] => true
  | item :: items => denotes item && denoteItems items

def denoteFields : List (String × Json) → Bool
  | [] => true
  | (_, value) :: fields => denotes value && denoteFields fields

end

/-- Splits a record into the field that tells its kind and the record of the others.  In an array that
field comes first. -/
def tagged? (tag : String) : Json → Option (String × Json)
  | array (string kind :: items) => some (kind, array items)
  | object fields =>
    match fields.filter (·.1 = tag) with
    | [(_, string kind)] => some (kind, object (fields.filter (·.1 ≠ tag)))
    | _ => none
  | _ => none

end Json

end FormulaNet

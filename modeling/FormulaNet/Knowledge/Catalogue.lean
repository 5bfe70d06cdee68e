import FormulaNet.Knowledge.Source
import Std.Data.TreeMap

/-!
# A catalogue in memory

A knowledge graph that grows: quantities, constants and formulas are added or inserted but never removed.
Beside the three tables it keeps an index of the quantities by name, and for each quantity the ids of the
formulas that refer to it.  An insertion checks everything first, so a refused one changes nothing; an
addition takes the id that its kind has counted on to, which it uses up even if it is refused.

Ids are counted in two ways.  An addition advances an atomic counter, which starts over after the last id; an
insertion adds one to the id of its entry, and as there is no id after the last one, that stops the program.
-/

namespace FormulaNet

structure Catalogue where
  quantities : Std.TreeMap QuantityId Quantity := ∅
  constants : Std.TreeMap ConstantId (Constant Float) := ∅
  formulas : Std.TreeMap FormulaId Formula := ∅
  /-- The ids of the quantities, by name. -/
  names : Std.TreeMap String QuantityId := ∅
  /-- The ids of the formulas that refer to a quantity, ascending. -/
  members : Std.TreeMap QuantityId (List FormulaId) := ∅
  nextQuantity : QuantityId := 1
  nextConstant : ConstantId := 1
  nextFormula : FormulaId := 1

namespace Catalogue

def empty : Catalogue where

/-- Why a write does not succeed. -/
inductive Failure where
  /-- The write is answered with an error. -/
  | refused (e : Error)
  /-- The id of the entry is the last one, so that counting on from it stops the program: the write is not
  answered at all. -/
  | overflow
  deriving DecidableEq, Repr

/-! ## Writing -/

/-- Where counting goes on once there is an entry with that id. -/
def countOn (next id : Nat) : Except Failure Nat :=
  if id < Ids.last then .ok (max next (id + 1)) else .error .overflow

/-- Inserts a quantity; neither its name nor its id may be taken. -/
def insertQuantity (c : Catalogue) (q : Quantity) : Except Failure Catalogue :=
  if q.name ∈ c.names then .error (.refused (.invalidInput (.quantityNameTaken q.name)))
  else if q.id ∈ c.quantities then .error (.refused (.invalidInput (.quantityTaken q.id)))
  else (countOn c.nextQuantity q.id).map fun next => { c with
    quantities := c.quantities.insert q.id q
    names := c.names.insert q.name q.id
    members := c.members.insert q.id (c.members.getD q.id [])
    nextQuantity := next }

def insertConstant (c : Catalogue) (k : Constant Float) : Except Failure Catalogue :=
  if k.id ∈ c.constants then .error (.refused (.invalidInput (.constantTaken k.id)))
  else (countOn c.nextConstant k.id).map fun next => { c with
    constants := c.constants.insert k.id k
    nextConstant := next }

/-- Drops the repetitions among the ids of a formula. -/
def withoutRepeats (f : Formula) : Formula :=
  { f with quantities := f.quantities.eraseDups, constants := f.constants.eraseDups }

/-- Notes a formula under each of its quantities. -/
def addMembers (members : Std.TreeMap QuantityId (List FormulaId)) (f : Formula) :
    Std.TreeMap QuantityId (List FormulaId) :=
  f.quantities.foldl (fun members q => members.insert q (Ids.insert f.id (members.getD q []))) members

/-- Inserts a formula.  It has to relate some quantity, all that it refers to has to exist, and its id may
not be taken. -/
def insertFormula (c : Catalogue) (f : Formula) : Except Failure Catalogue :=
  let f := withoutRepeats f
  if f.arity = 0 then .error (.refused (.invalidInput (.formulaWithoutQuantities f.name)))
  else
    match f.quantities.find? (· ∉ c.quantities), f.constants.find? (· ∉ c.constants) with
    | some q, _ => .error (.refused (.notFound (.quantityOf q f.id)))
    | none, some k => .error (.refused (.notFound (.constantOf k f.id)))
    | none, none =>
      if f.id ∈ c.formulas then .error (.refused (.invalidInput (.formulaTaken f.id)))
      else (countOn c.nextFormula f.id).map fun next => { c with
        formulas := c.formulas.insert f.id f
        members := addMembers c.members f
        nextFormula := next }

/-- The catalogue after an attempt, and the id if it succeeded; `spent` is the catalogue with the id used
up, and stands in where an overflow leaves none. -/
def afterAdding (spent : Catalogue) (id : Nat) (attempt : Except Failure Catalogue) :
    Except Failure Nat × Catalogue :=
  match attempt with
  | .ok c => (.ok id, c)
  | .error e => (.error e, spent)

/-- Adds a quantity under the next id. -/
def addQuantity (c : Catalogue) (name symbol unit : String) : Except Failure QuantityId × Catalogue :=
  let spent := { c with nextQuantity := Ids.next c.nextQuantity }
  afterAdding spent c.nextQuantity
    (spent.insertQuantity { id := c.nextQuantity, name, symbol, unit })

/-- Adds a constant under the next id. -/
def addConstant (c : Catalogue) (name symbol : String) (value : Float) (unit : String) :
    Except Failure ConstantId × Catalogue :=
  let spent := { c with nextConstant := Ids.next c.nextConstant }
  afterAdding spent c.nextConstant
    (spent.insertConstant { id := c.nextConstant, name, symbol, value, unit })

/-- Adds a formula under the next id. -/
def addFormula (c : Catalogue) (name expression : String) (quantities : List QuantityId)
    (constants : List ConstantId) : Except Failure FormulaId × Catalogue :=
  let spent := { c with nextFormula := Ids.next c.nextFormula }
  let f : Formula := { id := c.nextFormula, name, expression, quantities := [], constants := [] }
  afterAdding spent c.nextFormula
    (spent.insertFormula ((f.withQuantities quantities).withConstants constants))

/-- The catalogue of a snapshot, with the snapshot's ids. -/
def ofSnapshot (s : Snapshot) : Except Failure Catalogue := do
  let c ← s.quantities.foldlM insertQuantity empty
  let c ← s.constants.foldlM insertConstant c
  s.formulas.foldlM insertFormula c

/-! ## Reading -/

def allQuantities (c : Catalogue) : List Quantity := c.quantities.values

def allFormulas (c : Catalogue) : List Formula := c.formulas.values

/-- The formulas that refer to a quantity, by ascending id. -/
def formulasReferencing (c : Catalogue) (id : QuantityId) : List Formula :=
  (c.members.getD id []).filterMap (c.formulas[·]?)

def quantityCount (c : Catalogue) : Nat := c.quantities.size

def formulaCount (c : Catalogue) : Nat := c.formulas.size

/-- A copy of the whole catalogue. -/
def snapshot (c : Catalogue) : Snapshot where
  quantities := c.allQuantities
  constants := c.constants.values
  formulas := c.allFormulas

/-- The catalogue as a source; reading it never fails. -/
def source (c : Catalogue) : Source where
  quantity id := .ok c.quantities[id]?
  idByName name := .ok c.names[name]?
  allQuantities := .ok c.allQuantities
  constant id := .ok c.constants[id]?
  formula id := .ok c.formulas[id]?
  formulasReferencing id := .ok (c.formulasReferencing id)
  allFormulas := .ok c.allFormulas

end Catalogue

end FormulaNet

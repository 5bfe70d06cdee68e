import FormulaNet.Knowledge.Ids

/-!
# Quantities, constants and formulas

The vertices and edges of the formula graph.  A formula relates several quantities at once and refers to
them, and to the constants it uses, by id; each of the three kinds counts its ids on its own.
-/

namespace FormulaNet

abbrev QuantityId := Nat
abbrev ConstantId := Nat
abbrev FormulaId := Nat

/-- A physical variable: mass, force, velocity. -/
structure Quantity where
  id : QuantityId
  name : String
  /-- The symbol, as formulas write it. -/
  symbol : String
  unit : String
  isVector : Bool := false
  description : String := ""
  deriving DecidableEq, Repr

/-- A quantity whose value is always known. -/
structure Constant (ν : Type) where
  id : ConstantId
  name : String
  symbol : String
  value : ν
  unit : String
  deriving Repr

/-- A relation between quantities, written as an equation. -/
structure Formula where
  id : FormulaId
  name : String
  expression : String
  quantities : List QuantityId
  constants : List ConstantId
  deriving DecidableEq, Repr

/-- A formula together with what it refers to. -/
structure LoadedFormula (ν : Type) where
  formula : Formula
  quantities : List Quantity
  constants : List (Constant ν)
  deriving Repr

namespace Formula

def withQuantities (f : Formula) (ids : List QuantityId) : Formula :=
  { f with quantities := Ids.appendNew f.quantities ids }

def withConstants (f : Formula) (ids : List ConstantId) : Formula :=
  { f with constants := Ids.appendNew f.constants ids }

/-- The number of quantities that a formula relates. -/
def arity (f : Formula) : Nat := f.quantities.length

end Formula

/-- The quantity of an id, among those of a loaded formula. -/
def LoadedFormula.quantity? {ν : Type} (f : LoadedFormula ν) (id : QuantityId) : Option Quantity :=
  f.quantities.find? (·.id = id)

end FormulaNet

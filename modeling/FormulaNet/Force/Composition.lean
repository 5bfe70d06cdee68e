import FormulaNet.Force.Direction
import FormulaNet.Problem.Known

/-!
# Composition of forces

The forces among the knowns of a problem are resolved into components and summed to one resultant.  For
the search that follows, the resultant takes the place of the forces, unless they balance.
-/

namespace FormulaNet

structure ForceSettings where
  /-- A resultant smaller than this counts as none. -/
  equilibriumTolerance : Float := 0.01
  /-- The name under which the resultant joins the knowns. -/
  resultantName : String := "resultant force"
  unit : String := "N"
  deriving Repr

/-- A force with its angle, in radians, and its components. -/
structure Force where
  name : String
  magnitude : Float
  direction : String
  angle : Float
  x : Float
  y : Float
  unit : String
  deriving Repr

structure ForceAnalysis where
  components : List Force
  resultant : Force
  isEquilibrium : Bool
  description : String
  deriving Repr

namespace Force

def ofPolar (name : String) (magnitude angle : Float) (direction unit : String) : Force where
  name := name
  magnitude := magnitude
  direction := direction
  angle := angle
  x := magnitude * angle.cos
  y := magnitude * angle.sin
  unit := unit

def degrees (f : Force) : Float := Direction.toDegrees f.angle

/-- The force of a known; a direction that is not given is described. -/
def ofKnown (unit : String) (k : Known) : Force :=
  let angle := Direction.resolve k.direction k.subType
  ofPolar k.name k.value angle (k.direction.getD (Direction.describe angle)) unit

/-- The sum of numbers from left to right; the sum of none is negative zero. -/
def sum (xs : List Float) : Float := xs.foldl (· + ·) (-0)

/-- The force with the given components. -/
def ofComponents (name : String) (x y : Float) (unit : String) : Force :=
  let angle := Float.atan2 y x
  { name, magnitude := Binary64.hypot x y, direction := Direction.describe angle, angle, x, y, unit }

end Force

namespace ForceAnalysis

open Decimal (fixed)

def componentLine (unit : String) (f : Force) : String :=
  s!"- {f.name}: {fixed 2 f.magnitude} {unit}, {f.direction}\n"

/-- The report on the forces, their resultant and the balance. -/
def report (components : List Force) (r : Force) (isEquilibrium : Bool) : String :=
  "Force analysis:\n" ++ String.join (components.map (componentLine r.unit)) ++
  "\nResultant:\n" ++
  s!"- x component: {fixed 2 r.x} {r.unit}\n" ++
  s!"- y component: {fixed 2 r.y} {r.unit}\n" ++
  s!"- magnitude: {fixed 2 r.magnitude} {r.unit}\n" ++
  s!"- direction: {r.direction}\n" ++
  if isEquilibrium then "\nThe body is in equilibrium (net force is zero)."
  else s!"\nThe body is not in equilibrium; net force {fixed 2 r.magnitude} {r.unit}."

/-- Resolves the forces among the knowns and sums them. -/
def compose (settings : ForceSettings) (knowns : List Known) : ForceAnalysis :=
  let components := (knowns.filter Known.isForce).map (Force.ofKnown settings.unit)
  let resultant := Force.ofComponents settings.resultantName
    (Force.sum (components.map Force.x)) (Force.sum (components.map Force.y)) settings.unit
  let isEquilibrium : Bool := resultant.magnitude < settings.equilibriumTolerance
  { components, resultant, isEquilibrium,
    description := report components resultant isEquilibrium }

/-- The known that stands for the resultant. -/
def resultantKnown (settings : ForceSettings) (a : ForceAnalysis) : Known where
  name := settings.resultantName
  value := a.resultant.magnitude
  unit := settings.unit
  kind := some Known.forceKind
  subType := some "resultant"
  direction := some a.resultant.direction

/-- Puts the resultant in place of the forces, if it exceeds the tolerance; without forces nothing
changes. -/
def substitute (settings : ForceSettings) (knowns : List Known) :
    List Known × Option ForceAnalysis :=
  if knowns.any Known.isForce then
    let a := compose settings knowns
    let others := knowns.filter (!·.isForce)
    if a.resultant.magnitude > settings.equilibriumTolerance then
      (others ++ [resultantKnown settings a], some a)
    else (others, some a)
  else (knowns, none)

end ForceAnalysis

end FormulaNet

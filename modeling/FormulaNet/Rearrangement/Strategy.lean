import FormulaNet.Expr.Isolate

/-!
# Strategies of rearrangement

A strategy tries to express a symbol by the others: of an equation, or of the text of a formula that could
not be parsed.  It either solves or hands over with a reason.  A chain of strategies asks one after the
other, and the first solution counts.
-/

namespace FormulaNet

/-- The outcome of one strategy. -/
inductive Attempt (ν : Type) where
  | solved (solution : Expr ν)
  | next (reason : String)

namespace Attempt

variable {ν : Type}

def solution? : Attempt ν → Option (Expr ν)
  | solved e => some e
  | next _ => none

/-- A solution, or the reason why there is none. -/
def ofOption (e : Option (Expr ν)) (reason : String) : Attempt ν :=
  match e with
  | some e => solved e
  | none => next reason

@[simp] theorem solution?_solved (e : Expr ν) : (solved e).solution? = some e := rfl
@[simp] theorem solution?_next (s : String) : (next s : Attempt ν).solution? = none := rfl
@[simp] theorem solution?_ofOption (e : Option (Expr ν)) (s : String) :
    (ofOption e s).solution? = e := by
  cases e <;> rfl

end Attempt

structure Strategy (ν : Type) where
  name : String
  /-- Solves an equation for a target. -/
  attempt : Equation ν → String → Attempt ν
  /-- Solves the text of a formula that is no equation for the parser; few strategies can. -/
  attemptText : String → String → Attempt ν := fun text _ => .next s!"{text} did not parse"

namespace Strategy

variable {ν : Type} [Scalar ν]

/-- Isolation and collection of the target. -/
def symbolic : Strategy ν where
  name := "symbolic"
  attempt q target :=
    match q.solveFor target with
    | .ok e => .solved e
    | .error e => .next e.message

/-- The first solution of a chain. -/
def rearrange (chain : List (Strategy ν)) (q : Equation ν) (target : String) : Except Error (Expr ν) :=
  match chain.findSome? fun s => (s.attempt q target).solution? with
  | some e => .ok e
  | none => .error (.noSolution target q.print)

/-- The first solution of a chain for a text that did not parse because of `cause`. -/
def rearrangeText (chain : List (Strategy ν)) (text target : String) (cause : Error) :
    Except Error (Expr ν) :=
  match chain.findSome? fun s => (s.attemptText text target).solution? with
  | some e => .ok e
  | none => .error (.unreadableFormula text cause)

end Strategy

end FormulaNet

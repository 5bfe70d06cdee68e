import FormulaNet.Function
import FormulaNet.Token

/-!
# What can go wrong

An error names its cause; `Error.message` is the one place where causes are put into words.
-/

namespace FormulaNet

/-- Why a text is no expression or equation. -/
inductive SyntaxProblem where
  /-- There is nothing to read. -/
  | nothing
  /-- A character that begins no token. -/
  | character (c : Char)
  /-- A number token whose text is no numeral. -/
  | numeral (text : String)
  /-- One kind of token has to follow here, and another one does. -/
  | expected (wanted found : Token.Kind) (text : String)
  /-- Tokens are left after a whole equation or expression (`what`). -/
  | leftOver (what : String) (found : Token.Kind) (text : String)
  /-- A token that begins no operand. -/
  | noOperand (found : Token.Kind) (text : String)
  /-- A call with a second argument. -/
  | oneArgument (f : Function)
  /-- A function name without its bracket. -/
  | noBracket (f : Function)
  /-- The tokens end with a sign or an open bracket and no end mark: every look ahead shows that token
  again, so an operand never begins. -/
  | endless (found : Token.Kind)
  /-- A problem described by whoever reports it. -/
  | stated (message : String)
  deriving DecidableEq, Repr

inductive EvaluationProblem where
  | zeroDivisor (expression : String)
  /-- A function outside its domain. -/
  | outsideDomain (f : Function) (argument : String)
  | notFinite (expression value : String)
  deriving DecidableEq, Repr

/-- What was looked for in vain. -/
inductive Missing where
  | formula (id : Nat)
  | quantityNamed (name : String)
  | quantityOf (id formula : Nat)
  | constantOf (id formula : Nat)
  /-- A formula that should yield a quantity does not hold it. -/
  | outputOf (id formula : Nat)
  | everyKnown
  deriving DecidableEq, Repr

inductive InputProblem where
  | quantityNameTaken (name : String)
  | quantityTaken (id : Nat)
  | constantTaken (id : Nat)
  | formulaTaken (id : Nat)
  | formulaWithoutQuantities (name : String)
  | noKnowns
  | blankProblem
  | nothingCalculated
  deriving DecidableEq, Repr

inductive SettingsProblem where
  | unreadable
  | maxExpansions
  | maxFrontier
  | tolerance (text : String)
  | resultantName
  deriving DecidableEq, Repr

/-- Why no problem came out of a reply. -/
inductive ReplyProblem where
  | unreadable
  | noUnknown
  | stated (message : String)
  deriving DecidableEq, Repr

inductive Error where
  | syntaxError (position : Nat) (problem : SyntaxProblem)
  /-- A formula without exactly one sign of equality. -/
  | notAnEquation (text : String)
  /-- A formula that neither parses nor has a known shape. -/
  | unreadableFormula (text : String) (cause : Error)
  | noSolution (symbol equation : String)
  | missingVariable (name : String)
  | evaluation (problem : EvaluationProblem)
  | notFound (what : Missing)
  | invalidInput (problem : InputProblem)
  | calculationFailed (step : Nat) (cause : Error)
  | storage (message : String)
  | reply (problem : ReplyProblem)
  | settings (problem : SettingsProblem)
  | json
  | file
  deriving DecidableEq, Repr

namespace SyntaxProblem

def message : SyntaxProblem → String
  | nothing => "Empty input"
  | character c => s!"Unexpected character: '{c}'"
  | numeral text => s!"Invalid number '{text}'"
  | expected wanted found text => s!"Expected {wanted.name}, got {found.name} '{text}'"
  | leftOver what found text => s!"Unexpected token after {what}: {found.name} '{text}'"
  | noOperand found text => s!"Unexpected token in expression: {found.name} '{text}'"
  | oneArgument f => s!"{f.name}() takes exactly one argument"
  | noBracket f => s!"Expected '(' after function {f.name}"
  | endless found => s!"No operand ever follows {found.name}"
  | stated message => message

end SyntaxProblem

namespace EvaluationProblem

def message : EvaluationProblem → String
  | zeroDivisor expression => s!"division by zero in '{expression}'"
  | outsideDomain f argument => s!"{f.name}({argument}) is undefined"
  | notFinite expression value => s!"'{expression}' evaluated to {value}"

end EvaluationProblem

namespace Missing

def message : Missing → String
  | formula id => s!"Formula {id}"
  | quantityNamed name => s!"Quantity '{name}'"
  | quantityOf id owner => s!"Quantity {id} (referenced by formula {owner})"
  | constantOf id owner => s!"Constant {id} (referenced by formula {owner})"
  | outputOf id owner => s!"Quantity {id} in formula {owner}"
  | everyKnown => "None of the known quantities exist in the knowledge store"

end Missing

namespace InputProblem

def message : InputProblem → String
  | quantityNameTaken name => s!"Quantity name '{name}' already exists"
  | quantityTaken id => s!"Quantity {id} already exists"
  | constantTaken id => s!"Constant {id} already exists"
  | formulaTaken id => s!"Formula {id} already exists"
  | formulaWithoutQuantities name => s!"Formula '{name}' references no quantities"
  | noKnowns => "No known quantities given"
  | blankProblem => "Problem text is empty"
  | nothingCalculated => "Solving path produced no calculation"

end InputProblem

namespace SettingsProblem

def message : SettingsProblem → String
  | unreadable => "unreadable text"
  | maxExpansions => "search.max_expansions must be positive"
  | maxFrontier => "search.max_frontier must be positive"
  | tolerance text => s!"force.equilibrium_tolerance must be a non-negative number, got {text}"
  | resultantName => "force.resultant_name must not be empty"

end SettingsProblem

namespace ReplyProblem

def message : ReplyProblem → String
  | unreadable => "unreadable reply"
  | noUnknown => "reply names no unknown quantity"
  | stated message => message

end ReplyProblem

namespace Error

def message : Error → String
  | syntaxError position problem => s!"Equation syntax error at position {position}: {problem.message}"
  | notAnEquation text => s!"Malformed equation: {text}"
  | unreadableFormula text cause => s!"Malformed equation: {text}: {cause.message}"
  | noSolution symbol equation => s!"Cannot isolate {symbol} in {equation}"
  | missingVariable name => s!"Missing value for variable {name}"
  | evaluation problem => s!"Evaluation error: {problem.message}"
  | notFound what => s!"Not found: {what.message}"
  | invalidInput problem => s!"Invalid input: {problem.message}"
  | calculationFailed step cause => s!"Calculation failed at step {step}: {cause.message}"
  | storage message => s!"Storage error: {message}"
  | reply problem => s!"Problem parser error: {problem.message}"
  | settings problem => s!"Configuration error: {problem.message}"
  | json => "JSON error"
  | file => "IO error"

end Error

end FormulaNet

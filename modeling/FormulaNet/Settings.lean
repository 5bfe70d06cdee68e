import FormulaNet.Derivation.Search
import FormulaNet.Force.Composition
import FormulaNet.Rearrangement.Solver
import FormulaNet.Toml.Reader
import FormulaNet.Toml.Record

/-!
# Settings

Everything about the solver that can be set, in three sections.  All of it has defaults, so a document
gives what it wants to change; `Settings.validate` accepts the settings that the solver can run with.
-/

namespace FormulaNet

structure Settings where
  search : SearchSettings := {}
  force : ForceSettings := {}
  solver : SolverSettings := {}
  deriving Repr

/-! ## Settings in documents -/

section Documents

variable {δ : Type} [Document δ]

def SearchSettings.ofDocument? (d : δ) : Option SearchSettings := do
  let fields ← Document.fields? ["max_expansions", "max_frontier"] d
  let defaults : SearchSettings := {}
  let maxExpansions ← fields.defaulted "max_expansions" Document.natural? defaults.maxExpansions
  let maxFrontier ← fields.defaulted "max_frontier" Document.natural? defaults.maxFrontier
  some { maxExpansions, maxFrontier }

def ForceSettings.ofDocument? (d : δ) : Option ForceSettings := do
  let fields ← Document.fields? ["equilibrium_tolerance", "resultant_name", "unit"] d
  let defaults : ForceSettings := {}
  let equilibriumTolerance ←
    fields.defaulted "equilibrium_tolerance" Document.real? defaults.equilibriumTolerance
  let resultantName ← fields.defaulted "resultant_name" Document.string? defaults.resultantName
  let unit ← fields.defaulted "unit" Document.string? defaults.unit
  some { equilibriumTolerance, resultantName, unit }

def SolverSettings.ofDocument? (d : δ) : Option SolverSettings := do
  let fields ← Document.fields? ["enable_rule_table", "enable_simple_transform"] d
  let defaults : SolverSettings := {}
  let enableRuleTable ← fields.defaulted "enable_rule_table" Document.bool? defaults.enableRuleTable
  let enableSimpleTransform ←
    fields.defaulted "enable_simple_transform" Document.bool? defaults.enableSimpleTransform
  some { enableRuleTable, enableSimpleTransform }

def Settings.ofDocument? (d : δ) : Option Settings := do
  let fields ← Document.fields? ["search", "force", "solver"] d
  let search ← fields.defaulted "search" SearchSettings.ofDocument? {}
  let force ← fields.defaulted "force" ForceSettings.ofDocument? {}
  let solver ← fields.defaulted "solver" SolverSettings.ofDocument? {}
  some { search, force, solver }

end Documents

namespace Settings

/-- The settings that a TOML text gives. -/
def read (text : String) : Except Error Settings :=
  match (Toml.read? text).bind ofDocument? with
  | some s => .ok s
  | none => .error (.settings .unreadable)

def withMaxExpansions (s : Settings) (n : Nat) : Settings :=
  { s with search := { s.search with maxExpansions := n } }

def withResultantName (s : Settings) (name : String) : Settings :=
  { s with force := { s.force with resultantName := name } }

/-! ## Validation -/

/-- What is wrong with the settings; the first problem counts. -/
def problem? (s : Settings) : Option SettingsProblem :=
  let tolerance := s.force.equilibriumTolerance
  if s.search.maxExpansions = 0 then some .maxExpansions
  else if s.search.maxFrontier = 0 then some .maxFrontier
  else if !tolerance.isFinite || tolerance < 0 then some (.tolerance (Decimal.plain tolerance))
  else if Text.isBlankText s.force.resultantName then some .resultantName
  else none

def validate (s : Settings) : Except Error Unit :=
  match s.problem? with
  | some problem => .error (.settings problem)
  | none => .ok ()

/-- The settings in the contents of a file, if they are valid.  There are no contents if the file cannot
be read. -/
def load (contents : Option String) : Except Error Settings :=
  match contents with
  | none => .error .file
  | some text => do
    let s ← read text
    s.validate
    .ok s

theorem validate_eq_ok_iff {s : Settings} : s.validate = .ok () ↔ s.problem? = none := by
  unfold validate
  split <;> simp_all

@[simp] theorem load_none : load none = .error .file := rfl

end Settings

end FormulaNet

import FormulaNet.Error
import FormulaNet.Json.Reader
import FormulaNet.Problem.Known
import FormulaNet.Text.Classes

/-!
# Problems in plain language

A language model turns the statement of a problem into JSON.  It is sent instructions along with the
text; its reply may be wrapped in a fence of three backquotes, whose opening line may name a format.
-/

namespace FormulaNet

/-- What a language model is sent. -/
structure Inquiry where
  instructions : String
  text : String
  deriving DecidableEq, Repr

/-- A language model answers an inquiry with a reply, or fails. -/
abbrev LanguageModel := Inquiry → Except Error String

namespace Problem

/-- The instructions sent with every problem. -/
def extractionPrompt : String := "\n".intercalate [
  "You are a physics problem analysis assistant. Extract every known physical quantity " ++
    "(with its value and unit) and the single unknown quantity the user asks for.",
  "Reply with JSON only, in exactly this shape:",
  "\x7b",
  "  \"knowns\": [",
  "    \x7b \"name\": \"standard quantity name\", \"value\": 0, \"unit\": \"unit\", " ++
    "\"type\": \"semantic type\", \"subType\": \"optional refinement\", " ++
    "\"direction\": \"optional direction\" \x7d",
  "  ],",
  "  \"unknown\": \"standard name of the unknown quantity\"",
  "\x7d",
  "Use \"type\": \"force\" for every force and give its direction when the problem states one."]

def inquiry (text : String) : Inquiry := ⟨extractionPrompt, text⟩

/-! ## The reply -/

def fence : List Char := "```".toList

/-- What follows the first line. -/
def afterFirstLine (cs : List Char) : List Char := (cs.dropWhile (· ≠ '\n')).drop 1

/-- The text without its last characters, if these are the given ones. -/
def dropSuffix (suffix cs : List Char) : Option (List Char) :=
  if suffix.isSuffixOf cs then some (cs.take (cs.length - suffix.length)) else none

/-- A text without blanks and a fence around it.  A fence that is not closed reaches to the end. -/
def unfence (cs : List Char) : List Char :=
  let cs := Text.trim cs
  if fence.isPrefixOf cs then
    let body := afterFirstLine (cs.drop fence.length)
    Text.trim ((dropSuffix fence (Text.trimEnd body)).getD body)
  else cs

/-- The problem in a reply.  It has to ask for something. -/
def readReply (reply : String) : Except Error Problem :=
  match (Json.read? (String.ofList (unfence reply.toList))).bind ofJson? with
  | none => .error (.reply .unreadable)
  | some p => if Text.isBlankText p.unknown then .error (.reply .noUnknown) else .ok p

/-- The problem that a text states, as a language model understands it. -/
def extract (model : LanguageModel) (text : String) : Except Error Problem := do
  readReply (← model (inquiry text))

end Problem

end FormulaNet

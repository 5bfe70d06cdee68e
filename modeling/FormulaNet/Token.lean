/-!
# Tokens

The words of a formula: numbers, identifiers, marks and the end of the text.
-/

namespace FormulaNet

inductive Token.Kind where
  | number | identifier
  | openBracket | closeBracket | comma
  | equals | plus | minus | star | slash | caret
  | stop
  deriving DecidableEq, Repr

/-- A word of a formula.  `start` and `stop` count bytes from the beginning of the text. -/
structure Token where
  kind : Token.Kind
  start : Nat
  stop : Nat
  text : String
  deriving DecidableEq, Repr

namespace Token

/-- The name of a kind, as messages give it. -/
def Kind.name : Kind → String
  | .number => "Number"
  | .identifier => "Identifier"
  | .openBracket => "LParen"
  | .closeBracket => "RParen"
  | .comma => "Comma"
  | .equals => "Eq"
  | .plus => "Plus"
  | .minus => "Minus"
  | .star => "Star"
  | .slash => "Slash"
  | .caret => "Caret"
  | .stop => "Eof"

/-- The sign of multiplication at a position. -/
def times (position : Nat) : Token := ⟨.star, position, position + 1, "*"⟩

/-- Whether an operand may end with this token. -/
def endsOperand (t : Token) : Bool :=
  match t.kind with
  | .number | .identifier | .closeBracket => true
  | _ => false

/-- Whether an operand may begin with this token. -/
def startsOperand (t : Token) : Bool :=
  match t.kind with
  | .number | .identifier | .openBracket => true
  | _ => false

@[simp] theorem kind_times (n : Nat) : (times n).kind = .star := rfl

@[simp] theorem text_times (n : Nat) : (times n).text = "*" := rfl

@[simp] theorem endsOperand_times (n : Nat) : (times n).endsOperand = false := rfl

@[simp] theorem startsOperand_times (n : Nat) : (times n).startsOperand = false := rfl

end Token

end FormulaNet

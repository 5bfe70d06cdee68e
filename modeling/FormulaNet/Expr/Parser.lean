import FormulaNet.Expr.Basic
import FormulaNet.Token.Lexer

/-!
# Parsing expressions

The grammar, loosest first: sums and differences, products and quotients, signs, powers, and operands.
Sums and products group to the left, powers to the right; an exponent may carry its own sign.  A minus
before a literal becomes part of it.

The parser walks through a list of tokens and hands on the tokens that it left.  A list normally ends with
an end mark, which no rule takes.  On a list without one, a look past the end shows the last token again.
-/

namespace FormulaNet.Expr

variable {ν : Type} [Scalar ν]

/-- The token ahead; past the end it is the last one. -/
def ahead (last : Token) (ts : List Token) : Token := ts.headD last

/-- An error at the token ahead. -/
def refuse {α : Type} (last : Token) (ts : List Token) (problem : Token → SyntaxProblem) :
    Except Error α :=
  .error (.syntaxError (ahead last ts).start (problem (ahead last ts)))

/-- No operand begins at this token. -/
def noOperand (t : Token) : SyntaxProblem := .noOperand t.kind t.text

/-- The last token has been taken and an operand is still wanted.  A sign or an open bracket is taken
again and again; any other token is refused. -/
def pastEnd (last : Token) : SyntaxProblem :=
  match last.kind with
  | .plus | .minus | .openBracket => .endless last.kind
  | _ => noOperand last

/-- Takes one token of a kind; past the end the last token may be taken once more. -/
def expect (kind : Token.Kind) (last : Token) (ts : List Token) : Except Error (List Token) :=
  if (ahead last ts).kind = kind then .ok ts.tail
  else refuse last ts fun t => .expected kind t.kind t.text

/-- The operator that a token writes in a sum. -/
def sumOperator? : Token.Kind → Option Operator
  | .plus => some .add
  | .minus => some .sub
  | _ => none

/-- The operator that a token writes in a product. -/
def productOperator? : Token.Kind → Option Operator
  | .star => some .mul
  | .slash => some .div
  | _ => none

/-- A minus before an operand; a literal takes it over. -/
def withMinus : Expr ν → Expr ν
  | num x => num (-x)
  | e => neg e

/-- An expression and fewer tokens than there were. -/
abbrev Parsed (ν : Type) (n : Nat) := { r : Expr ν × List Token // r.2.length < n }

theorem length_expect_le {kind : Token.Kind} {last : Token} {ts rest : List Token}
    (h : expect kind last ts = .ok rest) : rest.length ≤ ts.length := by
  unfold expect refuse at h
  split at h
  · simp only [Except.ok.injEq] at h; simp [← h]
  · simp at h

/-- What a tail leaves after an operator and its right operand. -/
theorem length_tail_lt {a b n : Nat} (h : b < n) (h' : a < b + 1) : a < n + 1 + 1 :=
  Nat.lt_succ_of_lt (Nat.lt_succ_of_lt (Nat.lt_of_lt_of_le h' h))

mutual

def parseSum (last : Token) (ts : List Token) : Except Error (Parsed ν ts.length) :=
  match parseProduct last ts with
  | .error e => .error e
  | .ok ⟨(left, rest), h⟩ =>
    match parseSumTail last left rest with
    | .error e => .error e
    | .ok ⟨r, h'⟩ => .ok ⟨r, Nat.lt_of_lt_of_le h' h⟩
termination_by (ts.length, 5)

/-- Goes on with a sum whose left part has been read. -/
def parseSumTail (last : Token) (left : Expr ν) (ts : List Token) :
    Except Error (Parsed ν (ts.length + 1)) :=
  match ts with
  | [] => .ok ⟨(left, []), Nat.zero_lt_one⟩
  | t :: rest =>
    match sumOperator? t.kind with
    | none => .ok ⟨(left, t :: rest), Nat.lt_succ_self _⟩
    | some op =>
      match parseProduct last rest with
      | .error e => .error e
      | .ok ⟨(right, rest'), h⟩ =>
        have h : rest'.length < rest.length := h
        match parseSumTail last (bin op left right) rest' with
        | .error e => .error e
        | .ok ⟨r, h'⟩ => .ok ⟨r, length_tail_lt h h'⟩
termination_by (ts.length, 0)

def parseProduct (last : Token) (ts : List Token) : Except Error (Parsed ν ts.length) :=
  match parseSigned last ts with
  | .error e => .error e
  | .ok ⟨(left, rest), h⟩ =>
    match parseProductTail last left rest with
    | .error e => .error e
    | .ok ⟨r, h'⟩ => .ok ⟨r, Nat.lt_of_lt_of_le h' h⟩
termination_by (ts.length, 4)

/-- Goes on with a product whose left part has been read. -/
def parseProductTail (last : Token) (left : Expr ν) (ts : List Token) :
    Except Error (Parsed ν (ts.length + 1)) :=
  match ts with
  | [] => .ok ⟨(left, []), Nat.zero_lt_one⟩
  | t :: rest =>
    match productOperator? t.kind with
    | none => .ok ⟨(left, t :: rest), Nat.lt_succ_self _⟩
    | some op =>
      match parseSigned last rest with
      | .error e => .error e
      | .ok ⟨(right, rest'), h⟩ =>
        have h : rest'.length < rest.length := h
        match parseProductTail last (bin op left right) rest' with
        | .error e => .error e
        | .ok ⟨r, h'⟩ => .ok ⟨r, length_tail_lt h h'⟩
termination_by (ts.length, 0)

/-- An operand with any number of signs before it. -/
def parseSigned (last : Token) (ts : List Token) : Except Error (Parsed ν ts.length) :=
  match ts with
  | [] => .error (.syntaxError last.start (pastEnd last))
  | t :: rest =>
    if t.kind = .minus then
      match parseSigned last rest with
      | .error e => .error e
      | .ok ⟨(e, rest'), h⟩ => .ok ⟨(withMinus e, rest'), Nat.lt_succ_of_lt h⟩
    else if t.kind = .plus then
      match parseSigned last rest with
      | .error e => .error e
      | .ok ⟨(e, rest'), h⟩ => .ok ⟨(e, rest'), Nat.lt_succ_of_lt h⟩
    else parsePower last (t :: rest)
termination_by (ts.length, 3)

def parsePower (last : Token) (ts : List Token) : Except Error (Parsed ν ts.length) :=
  match parseOperand last ts with
  | .error e => .error e
  | .ok ⟨(base, []), h⟩ => .ok ⟨(base, []), h⟩
  | .ok ⟨(base, t :: rest), h⟩ =>
    have h : rest.length + 1 < ts.length := h
    if t.kind = .caret then
      match parseSigned last rest with
      | .error e => .error e
      | .ok ⟨(exponent, rest'), h'⟩ =>
        .ok ⟨(bin .pow base exponent, rest'), by simp only at *; omega⟩
    else .ok ⟨(base, t :: rest), h⟩
termination_by (ts.length, 2)

/-- A number, a symbol, a call, or an expression in brackets. -/
def parseOperand (last : Token) (ts : List Token) : Except Error (Parsed ν ts.length) :=
  match ts with
  | [] => .error (.syntaxError last.start (pastEnd last))
  | t :: rest =>
    match t.kind with
    | .number =>
      match Scalar.read? t.text with
      | some x => .ok ⟨(num x, rest), Nat.lt_succ_self _⟩
      | none => .error (.syntaxError t.start (.numeral t.text))
    | .openBracket =>
      match parseSum last rest with
      | .error e => .error e
      | .ok ⟨(e, rest'), h⟩ =>
        match hc : expect .closeBracket last rest' with
        | .error e => .error e
        | .ok rest'' => .ok ⟨(e, rest''), by
            have := length_expect_le hc; simp only [List.length_cons] at *; omega⟩
    | .identifier =>
      match Function.ofName? t.text with
      | none => .ok ⟨(sym t.text, rest), Nat.lt_succ_self _⟩
      | some f =>
        match rest with
        | [] => .error (.syntaxError t.stop (.noBracket f))
        | u :: rest' =>
          if u.kind = .openBracket then
            match parseSum last rest' with
            | .error e => .error e
            | .ok ⟨(e, rest''), h⟩ =>
              if (ahead last rest'').kind = .comma then refuse last rest'' fun _ => .oneArgument f
              else
                match hc : expect .closeBracket last rest'' with
                | .error e => .error e
                | .ok rest3 => .ok ⟨(call f e, rest3), by
                    have := length_expect_le hc; simp only [List.length_cons] at *; omega⟩
          else .error (.syntaxError t.stop (.noBracket f))
    | _ => .error (.syntaxError t.start (noOperand t))
termination_by (ts.length, 1)

end

/-- The end of the text has to be ahead; `what` names what has been read. -/
def finish {α : Type} (what : String) (last : Token) (rest : List Token) (a : α) : Except Error α :=
  if (ahead last rest).kind = .stop then .ok a
  else refuse last rest fun t => .leftOver what t.kind t.text

/-- The expression that a list of tokens writes. -/
def ofTokens (ts : List Token) : Except Error (Expr ν) :=
  match ts.getLast? with
  | none => .error (.syntaxError 0 .nothing)
  | some last => do
    let ⟨(e, rest), _⟩ ← parseSum last ts
    finish "expression" last rest e

/-- Reads an expression in plain notation. -/
def parse (v : Vocabulary) (text : String) : Except Error (Expr ν) := do
  ofTokens (← Token.tokenize v text)

end FormulaNet.Expr

namespace FormulaNet.Equation

variable {ν : Type} [Scalar ν]

/-- The equation that a list of tokens writes. -/
def ofTokens (ts : List Token) : Except Error (Equation ν) :=
  match ts.getLast? with
  | none => .error (.syntaxError 0 .nothing)
  | some last => do
    let ⟨(lhs, rest), _⟩ ← Expr.parseSum last ts
    let rest ← Expr.expect .equals last rest
    let ⟨(rhs, rest), _⟩ ← Expr.parseSum last rest
    Expr.finish "equation" last rest ⟨lhs, rhs⟩

/-- Reads an equation in plain notation. -/
def parse (v : Vocabulary) (text : String) : Except Error (Equation ν) := do
  ofTokens (← Token.tokenize v text)

end FormulaNet.Equation

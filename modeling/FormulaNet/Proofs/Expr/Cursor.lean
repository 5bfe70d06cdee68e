import FormulaNet.Proofs.Expr.Parser

/-!
# Parsing with a cursor

The rules of the grammar over the whole list of tokens and a position in it.  A look past the end shows the
last token, and taking a token there leaves the position as it is; so a sign or an open bracket at the end
of the list can be taken again and again, and the signs and brackets that it opens are never closed.

Every way to call a rule again goes through the rule for signs, so a limit is set on how many of its calls
may be pending.  No more are needed than there are tokens, and the answer is that of the rules that hand
on what is left.  What no limit is enough for is an operand that is wanted after such a last token.
-/

namespace FormulaNet.Expr.Cursor

variable {ν : Type} [Scalar ν] {α β : Type}

/-! ## The parser -/

/-- A computation that fails, answers, or is cut off by a limit. -/
abbrev Limited := ExceptT Error Option

/-- The token at a position; past the end it is the last one. -/
def peek (last : Token) (ts : List Token) (pos : Nat) : Token := ts.getD (min pos (ts.length - 1)) last

/-- The position after a token has been taken. -/
def advance (ts : List Token) (pos : Nat) : Nat := if pos < ts.length then pos + 1 else pos

/-- An error at the token ahead. -/
def refuse (last : Token) (ts : List Token) (pos : Nat) (problem : Token → SyntaxProblem) : Limited α :=
  throw (.syntaxError (peek last ts pos).start (problem (peek last ts pos)))

/-- Takes one token of a kind. -/
def expect (kind : Token.Kind) (last : Token) (ts : List Token) (pos : Nat) : Limited Nat :=
  if (peek last ts pos).kind = kind then pure (advance ts pos)
  else refuse last ts pos fun t => .expected kind t.kind t.text

/-- What is read from a position, and the position after it. -/
abbrev Run (ν : Type) := Nat → Limited (Expr ν × Nat)

/-- Goes on with operators and what stands to their right; `rounds` limits how many operators. -/
def tail (operator? : Token.Kind → Option Operator) (last : Token) (ts : List Token) (next : Run ν) :
    Nat → Expr ν → Run ν
  | rounds, left, pos =>
    match operator? (peek last ts pos).kind, rounds with
    | none, _ => pure (left, pos)
    | some _, 0 => ExceptT.mk none
    | some op, rounds + 1 => do
      let (right, pos) ← next (advance ts pos)
      tail operator? last ts next rounds (bin op left right) pos

/-- Operators, and what stands between them. -/
def chain (operator? : Token.Kind → Option Operator) (last : Token) (ts : List Token) (next : Run ν)
    (rounds : Nat) : Run ν := fun pos => do
  let (left, pos) ← next pos
  tail operator? last ts next rounds left pos

def sum (last : Token) (ts : List Token) (signed : Run ν) (limit : Nat) : Run ν :=
  chain sumOperator? last ts (chain productOperator? last ts signed limit) limit

/-- A number, a symbol, a call, or an expression in brackets; `signed` reads an operand with its signs. -/
def operand (last : Token) (ts : List Token) (signed : Run ν) (limit : Nat) : Run ν := fun pos =>
  let t := peek last ts pos
  let pos := advance ts pos
  match t.kind with
  | .number =>
    match Scalar.read? t.text with
    | some x => pure (num x, pos)
    | none => throw (.syntaxError t.start (.numeral t.text))
  | .openBracket => do
    let (e, pos) ← sum last ts signed limit pos
    let pos ← expect .closeBracket last ts pos
    pure (e, pos)
  | .identifier =>
    match Function.ofName? t.text with
    | none => pure (sym t.text, pos)
    | some f =>
      if (peek last ts pos).kind = .openBracket then do
        let (e, pos) ← sum last ts signed limit (advance ts pos)
        if (peek last ts pos).kind = .comma then refuse last ts pos fun _ => .oneArgument f
        else do
          let pos ← expect .closeBracket last ts pos
          pure (call f e, pos)
      else throw (.syntaxError t.stop (.noBracket f))
  | _ => throw (.syntaxError t.start (noOperand t))

def power (last : Token) (ts : List Token) (signed : Run ν) (limit : Nat) : Run ν := fun pos => do
  let (base, pos) ← operand last ts signed limit pos
  if (peek last ts pos).kind = .caret then do
    let (exponent, pos) ← signed (advance ts pos)
    pure (bin .pow base exponent, pos)
  else pure (base, pos)

/-- An operand with its signs, where `limit` calls of this rule may be pending. -/
def signed (last : Token) (ts : List Token) : Nat → Run ν
  | 0 => fun _ => ExceptT.mk none
  | limit + 1 => fun pos =>
    if (peek last ts pos).kind = .minus then do
      let (e, pos) ← signed last ts limit (advance ts pos)
      pure (withMinus e, pos)
    else if (peek last ts pos).kind = .plus then signed last ts limit (advance ts pos)
    else power last ts (signed last ts limit) limit pos

/-- The end of the text has to be ahead. -/
def finish (what : String) (last : Token) (ts : List Token) (pos : Nat) (a : α) : Limited α :=
  if (peek last ts pos).kind = .stop then pure a
  else refuse last ts pos fun t => .leftOver what t.kind t.text

/-- The expression that a list of tokens writes, with a limit on pending calls. -/
def expression (limit : Nat) (ts : List Token) : Limited (Expr ν) :=
  match ts.getLast? with
  | none => throw (.syntaxError 0 .nothing)
  | some last => do
    let (e, pos) ← sum last ts (signed last ts limit) limit 0
    finish "expression" last ts pos e

/-- The equation that a list of tokens writes, with a limit on pending calls. -/
def equation (limit : Nat) (ts : List Token) : Limited (Equation ν) :=
  match ts.getLast? with
  | none => throw (.syntaxError 0 .nothing)
  | some last => do
    let (lhs, pos) ← sum last ts (signed last ts limit) limit 0
    let pos ← expect .equals last ts pos
    let (rhs, pos) ← sum last ts (signed last ts limit) limit pos
    finish "equation" last ts pos ⟨lhs, rhs⟩

/-! ## Positions and what is left -/

section Positions

variable {last t : Token} {ts rest : List Token} {pos : Nat}

theorem peek_of_drop_eq_cons (h : ts.drop pos = t :: rest) : peek last ts pos = t := by
  have hlt : pos < ts.length := by
    by_contra hge
    rw [List.drop_eq_nil_of_le (Nat.le_of_not_lt hge)] at h
    cases h
  rw [List.drop_eq_getElem_cons hlt] at h
  cases h
  rw [peek, Nat.min_eq_left (by omega), List.getD_eq_getElem?_getD, List.getElem?_eq_getElem hlt,
    Option.getD_some]

theorem peek_length (hlast : ts.getLast? = some last) : peek last ts ts.length = last := by
  rw [List.getLast?_eq_getElem?] at hlast
  rw [peek, Nat.min_eq_right (by omega), List.getD_eq_getElem?_getD, hlast, Option.getD_some]

theorem advance_of_lt (h : pos < ts.length) : advance ts pos = pos + 1 := if_pos h

@[simp] theorem advance_length : advance ts ts.length = ts.length := if_neg (Nat.lt_irrefl _)

/-- A position is at the end, or a token is ahead. -/
theorem at_end_or_cons (h : pos ≤ ts.length) :
    (pos = ts.length ∧ ts.drop pos = []) ∨
      ∃ t rest, pos < ts.length ∧ ts.drop pos = t :: rest ∧ ts.drop (pos + 1) = rest := by
  rcases Nat.eq_or_lt_of_le h with rfl | hlt
  · exact .inl ⟨rfl, List.drop_length⟩
  · exact .inr ⟨ts[pos], ts.drop (pos + 1), hlt, List.drop_eq_getElem_cons hlt, rfl⟩

/-- The token before the end is the last one. -/
theorem eq_last_of_drop (hlast : ts.getLast? = some last) (h : ts.drop pos = t :: rest)
    (hpos : pos + 1 = ts.length) : t = last :=
  calc
    t = peek last ts pos := (peek_of_drop_eq_cons h).symm
    _ = peek last ts ts.length := by
        rw [peek, peek, Nat.min_eq_left (by omega), Nat.min_eq_right (by omega), ← hpos,
          Nat.add_sub_cancel]
    _ = last := peek_length hlast

/-- A look from a position sees what a look at the tokens left sees. -/
theorem peek_eq_ahead (hlast : ts.getLast? = some last) (h : pos ≤ ts.length) :
    peek last ts pos = ahead last (ts.drop pos) := by
  rcases at_end_or_cons h with ⟨rfl, hnil⟩ | ⟨t, rest, -, hcons, -⟩
  · rw [hnil, peek_length hlast]
    rfl
  · rw [hcons, peek_of_drop_eq_cons hcons]
    rfl

end Positions

/-! ## Agreement with the rules on what is left -/

/-- A token that is taken again and again where an operand is wanted after the end. -/
def Endless (t : Token) : Prop := t.kind = .minus ∨ t.kind = .plus ∨ t.kind = .openBracket

theorem Endless.pastEnd_eq {t : Token} (h : Endless t) : pastEnd t = .endless t.kind := by
  rcases h with h | h | h <;> simp [pastEnd, h]

theorem pastEnd_eq_noOperand {t : Token} (h : ¬Endless t) : pastEnd t = noOperand t := by
  simp only [Endless, not_or] at h
  unfold pastEnd
  split <;> simp_all

/-- The last of some tokens is a sign or an open bracket. -/
def EndsOpen (ts : List Token) : Prop := ∃ last, ts.getLast? = some last ∧ Endless last

/-- A limited computation on some tokens agrees with an answer up to a relation: it is cut off only where the
limit is not `enough` or the answer is that no operand ever follows. -/
inductive Agrees (ts : List Token) (enough : Prop) (R : α → β → Prop) :
    Limited α → Except Error β → Prop
  | cut {y : Except Error β} : ¬enough → Agrees ts enough R (ExceptT.mk none) y
  | endless {position : Nat} {kind : Token.Kind} : EndsOpen ts →
      Agrees ts enough R (ExceptT.mk none) (.error (.syntaxError position (.endless kind)))
  | refused {position : Nat} {problem : SyntaxProblem} : (∀ kind, problem ≠ .endless kind) →
      Agrees ts enough R (throw (.syntaxError position problem)) (.error (.syntaxError position problem))
  | answered {a : α} {b : β} : R a b → Agrees ts enough R (pure a) (.ok b)

namespace Agrees

variable {α' β' : Type} {ts : List Token} {enough enough' : Prop} {R : α → β → Prop} {S : α' → β' → Prop}

theorem bind {x : Limited α} {y : Except Error β} {f : α → Limited α'} {g : β → Except Error β'}
    (h : Agrees ts enough R x y) (hfg : ∀ a b, R a b → Agrees ts enough S (f a) (g b)) :
    Agrees ts enough S (x >>= f) (y >>= g) := by
  cases h with
  | cut h => exact .cut h
  | endless h => exact .endless h
  | refused h => exact .refused h
  | answered h => exact hfg _ _ h

theorem of_imp {x : Limited α} {y : Except Error β} (h : Agrees ts enough R x y) (himp : enough' → enough) :
    Agrees ts enough' R x y := by
  cases h with
  | cut h => exact .cut fun h' ↦ h (himp h')
  | endless h => exact .endless h
  | refused h => exact .refused h
  | answered h => exact .answered h

theorem imp {R' : α → β → Prop} {x : Limited α} {y : Except Error β} (h : Agrees ts enough R x y)
    (himp : ∀ a b, R a b → R' a b) : Agrees ts enough R' x y := by
  cases h with
  | cut h => exact .cut h
  | endless h => exact .endless h
  | refused h => exact .refused h
  | answered h => exact .answered (himp _ _ h)

end Agrees

/-- What has been read from `start`, the position after it, and the tokens left there. -/
inductive At (last : Token) (ts : List Token) (start : Nat) : Expr ν × Nat → Expr ν × List Token → Prop
  | intro {e : Expr ν} {pos : Nat} : start < pos → pos ≤ ts.length →
      (pos = ts.length → last.endsOperand = true) → At last ts start (e, pos) (e, ts.drop pos)

/-- A position from `start` on where an operand is wanted: some token has been taken there that ends no
operand. -/
structure Wanted (last : Token) (ts : List Token) (start pos : Nat) : Prop where
  le : start ≤ pos
  le_length : pos ≤ ts.length
  ends : pos = ts.length → last.endsOperand = false
  room : pos = ts.length → start < pos ∨ Endless last

/-- What a rule reads and leaves. -/
def bare {n : Nat} (x : Except Error (Parsed ν n)) : Except Error (Expr ν × List Token) := x.map (·.1)

/-- Wherever an operand is wanted, reading at the position agrees with reading what is left. -/
def Serves (last : Token) (ts : List Token) (enough : Prop) (start : Nat) (run : Run ν)
    (rule : List Token → Except Error (Expr ν × List Token)) : Prop :=
  ∀ pos, Wanted last ts start pos → Agrees ts enough (At last ts pos) (run pos) (rule (ts.drop pos))

/-! ### The rules on what is left, step by step -/

section Bare

variable {last t : Token} {ts rest : List Token} {left : Expr ν}

theorem bare_parseSum : bare (ν := ν) (parseSum last ts) =
    bare (parseProduct last ts) >>= fun r ↦ bare (parseSumTail last r.1 r.2) := by
  conv_lhs => unfold parseSum
  rcases parseProduct last ts with e | ⟨⟨l, rest⟩, h⟩
  · rfl
  · dsimp only
    rcases hr : parseSumTail last l rest with e | r <;> simp [bare, hr, Except.map, bind, Except.bind]

theorem bare_parseProduct : bare (ν := ν) (parseProduct last ts) =
    bare (parseSigned last ts) >>= fun r ↦ bare (parseProductTail last r.1 r.2) := by
  conv_lhs => unfold parseProduct
  rcases parseSigned last ts with e | ⟨⟨l, rest⟩, h⟩
  · rfl
  · dsimp only
    rcases hr : parseProductTail last l rest with e | r <;> simp [bare, hr, Except.map, bind, Except.bind]

/-- How a rule goes on with operators, each followed by what another rule reads. -/
structure GoesOn (operator? : Token.Kind → Option Operator)
    (rule : List Token → Except Error (Expr ν × List Token))
    (more : Expr ν → List Token → Except Error (Expr ν × List Token)) : Prop where
  nil : ∀ left, more left [] = .ok (left, [])
  stop : ∀ left t rest, operator? t.kind = none → more left (t :: rest) = .ok (left, t :: rest)
  step : ∀ left t rest op, operator? t.kind = some op →
    more left (t :: rest) = rule rest >>= fun r ↦ more (bin op left r.1) r.2

theorem goesOn_parseProductTail : GoesOn (ν := ν) productOperator? (fun ts ↦ bare (parseSigned last ts))
    (fun left ts ↦ bare (parseProductTail last left ts)) where
  nil left := by
    unfold parseProductTail
    rfl
  stop left t rest h := by
    unfold parseProductTail
    simp only [h]
    rfl
  step left t rest op h := by
    conv_lhs => unfold parseProductTail
    simp only [h]
    rcases parseSigned last rest with e | ⟨⟨right, rest'⟩, hlt⟩
    · rfl
    · dsimp only
      rcases hr : parseProductTail last (bin op left right) rest' with e | r <;>
        simp [bare, hr, Except.map, bind, Except.bind]

theorem goesOn_parseSumTail : GoesOn (ν := ν) sumOperator? (fun ts ↦ bare (parseProduct last ts))
    (fun left ts ↦ bare (parseSumTail last left ts)) where
  nil left := by
    unfold parseSumTail
    rfl
  stop left t rest h := by
    unfold parseSumTail
    simp only [h]
    rfl
  step left t rest op h := by
    conv_lhs => unfold parseSumTail
    simp only [h]
    rcases parseProduct last rest with e | ⟨⟨right, rest'⟩, hlt⟩
    · rfl
    · dsimp only
      rcases hr : parseSumTail last (bin op left right) rest' with e | r <;>
        simp [bare, hr, Except.map, bind, Except.bind]

theorem bare_parseSigned_nil : bare (ν := ν) (parseSigned last []) =
    .error (.syntaxError last.start (pastEnd last)) := by
  unfold parseSigned
  rfl

theorem bare_parseSigned_minus (h : t.kind = .minus) : bare (ν := ν) (parseSigned last (t :: rest)) =
    bare (parseSigned last rest) >>= fun r ↦ .ok (withMinus r.1, r.2) := by
  conv_lhs => unfold parseSigned
  rw [if_pos h]
  rcases parseSigned last rest with e | r <;> rfl

theorem bare_parseSigned_plus (h : t.kind = .plus) : bare (ν := ν) (parseSigned last (t :: rest)) =
    bare (parseSigned last rest) := by
  conv_lhs => unfold parseSigned
  rw [if_neg (by simp [h]), if_pos h]
  rcases parseSigned last rest with e | r <;> rfl

theorem bare_parseSigned_unsigned (h : t.kind ≠ .minus) (h' : t.kind ≠ .plus) :
    bare (ν := ν) (parseSigned last (t :: rest)) = bare (parsePower last (t :: rest)) := by
  conv_lhs => unfold parseSigned
  rw [if_neg h, if_neg h']

theorem bare_parsePower : bare (ν := ν) (parsePower last ts) =
    bare (parseOperand last ts) >>= fun r ↦
      match r with
      | (base, []) => .ok (base, [])
      | (base, t :: rest) =>
        if t.kind = .caret then
          bare (parseSigned last rest) >>= fun r ↦ .ok (bin .pow base r.1, r.2)
        else .ok (base, t :: rest) := by
  conv_lhs => unfold parsePower
  rcases parseOperand last ts with e | ⟨⟨base, _ | ⟨t, rest⟩⟩, h⟩
  · rfl
  · rfl
  · dsimp only
    by_cases hcaret : t.kind = .caret
    · rw [if_pos hcaret]
      rcases hr : parseSigned last rest with e | r <;>
        simp [bare, hr, hcaret, Except.map, bind, Except.bind]
    · rw [if_neg hcaret]
      simp [bare, hcaret, Except.map, bind, Except.bind]

theorem bare_parseOperand_number (h : t.kind = .number) : bare (ν := ν) (parseOperand last (t :: rest)) =
    match (Scalar.read? t.text : Option ν) with
    | some x => .ok (num x, rest)
    | none => .error (.syntaxError t.start (.numeral t.text)) := by
  conv_lhs => unfold parseOperand
  simp only [h]
  split <;> simp_all [bare, Except.map]

theorem bare_parseOperand_brackets (h : t.kind = .openBracket) :
    bare (ν := ν) (parseOperand last (t :: rest)) = (do
      let (e, rest) ← bare (parseSum last rest)
      let rest ← Expr.expect .closeBracket last rest
      .ok (e, rest)) := by
  conv_lhs => unfold parseOperand
  simp only [h]
  rcases parseSum last rest with e | ⟨⟨e, rest'⟩, hlt⟩
  · rfl
  · dsimp only
    split <;> simp_all [bare, Except.map, bind, Except.bind]

theorem bare_parseOperand_symbol (h : t.kind = .identifier) (h' : Function.ofName? t.text = none) :
    bare (ν := ν) (parseOperand last (t :: rest)) = .ok (sym t.text, rest) := by
  conv_lhs => unfold parseOperand
  simp only [h, h']
  rfl

theorem bare_parseOperand_call {u : Token} {f : Function} (h : t.kind = .identifier)
    (h' : Function.ofName? t.text = some f) (hopen : u.kind = .openBracket) :
    bare (ν := ν) (parseOperand last (t :: u :: rest)) = (do
      let (e, rest) ← bare (parseSum last rest)
      if (ahead last rest).kind = .comma then Expr.refuse last rest fun _ ↦ .oneArgument f
      else do
        let rest ← Expr.expect .closeBracket last rest
        .ok (call f e, rest)) := by
  conv_lhs => unfold parseOperand
  simp only [h, h', hopen, if_true]
  rcases parseSum last rest with e | ⟨⟨e, rest'⟩, hlt⟩
  · rfl
  · dsimp only
    split
    · simp_all [bare, Except.map, bind, Except.bind, Expr.refuse]
    · split <;> simp_all [bare, Except.map, bind, Except.bind]

theorem bare_parseOperand_noBracket {f : Function} (h : t.kind = .identifier)
    (h' : Function.ofName? t.text = some f) (hopen : ∀ u ∈ rest.head?, u.kind ≠ .openBracket) :
    bare (ν := ν) (parseOperand last (t :: rest)) = .error (.syntaxError t.stop (.noBracket f)) := by
  conv_lhs => unfold parseOperand
  simp only [h, h']
  rcases rest with _ | ⟨u, rest⟩
  · rfl
  · rw [List.head?_cons] at hopen
    simp only [if_neg (hopen u rfl)]
    rfl

theorem bare_parseOperand_other (h : t.startsOperand = false) :
    bare (ν := ν) (parseOperand last (t :: rest)) = .error (.syntaxError t.start (noOperand t)) := by
  conv_lhs => unfold parseOperand
  cases hkind : t.kind <;> simp_all [Token.startsOperand, bare, Except.map]

end Bare

/-! ### One lemma for each rule -/

section Rules

variable {last : Token} {ts : List Token} {enough : Prop} {start : Nat}

theorem Wanted.of_le {start' pos : Nat} (h : Wanted last ts start' pos) (hle : start ≤ start') :
    Wanted last ts start pos :=
  ⟨Nat.le_trans hle h.le, h.le_length, h.ends, fun hpos ↦ (h.room hpos).imp_left fun h ↦ Nat.lt_of_le_of_lt hle h⟩

omit [Scalar ν] in
theorem Serves.of_le {start' : Nat} {run : Run ν}
    {rule : List Token → Except Error (Expr ν × List Token)} (h : Serves last ts enough start run rule)
    (hle : start ≤ start') : Serves last ts enough start' run rule :=
  fun pos hpos ↦ h pos (hpos.of_le hle)

omit [Scalar ν] in
theorem At.of_le {start' : Nat} {r : Expr ν × Nat} {r' : Expr ν × List Token} (h : At last ts start' r r')
    (hle : start ≤ start') : At last ts start r r' := by
  cases h with
  | intro hlt hle' hends => exact .intro (Nat.lt_of_le_of_lt hle hlt) hle' hends

/-- An operand is wanted after a token that ends none. -/
theorem wanted_succ (hlast : ts.getLast? = some last) {t : Token} {rest : List Token} {pos : Nat}
    (h : ts.drop pos = t :: rest) (hlt : pos < ts.length) (hends : t.endsOperand = false)
    (hle : start ≤ pos + 1) (hroom : start < pos + 1 ∨ Endless t) : Wanted last ts start (pos + 1) where
  le := hle
  le_length := hlt
  ends heq := eq_last_of_drop hlast h heq ▸ hends
  room heq := hroom.imp_right fun h' ↦ eq_last_of_drop hlast h heq ▸ h'

theorem agrees_expect (hlast : ts.getLast? = some last) {kind : Token.Kind} {pos : Nat}
    (hle : pos ≤ ts.length) :
    Agrees ts enough (fun p rest ↦ rest = ts.drop p ∧ pos ≤ p ∧ p ≤ ts.length ∧
      (p = ts.length → last.kind = kind)) (expect kind last ts pos) (Expr.expect kind last (ts.drop pos)) := by
  unfold expect Expr.expect refuse Expr.refuse
  rw [peek_eq_ahead hlast hle]
  split
  · next hkind =>
    refine .answered ?_
    rcases at_end_or_cons hle with ⟨rfl, hnil⟩ | ⟨t, rest, hlt, hcons, hrest⟩
    · rw [hnil] at hkind
      rw [advance_length]
      exact ⟨by rw [hnil]; rfl, Nat.le_refl _, Nat.le_refl _, fun _ ↦ hkind⟩
    · rw [hcons] at hkind
      rw [advance_of_lt hlt]
      exact ⟨by rw [hcons, hrest]; rfl, Nat.le_succ _, hlt, fun heq ↦ eq_last_of_drop hlast hcons heq ▸ hkind⟩
  · exact .refused fun _ ↦ nofun

section Operators

variable {operator? : Token.Kind → Option Operator} {next : Run ν} {rounds : Nat} {left : Expr ν} {pos : Nat}

omit [Scalar ν] in
theorem tail_of_none (h : operator? (peek last ts pos).kind = none) :
    tail operator? last ts next rounds left pos = pure (left, pos) := by
  cases rounds <;> simp [tail, h]

omit [Scalar ν] in
theorem tail_zero {op : Operator} (h : operator? (peek last ts pos).kind = some op) :
    tail operator? last ts next 0 left pos = ExceptT.mk none := by
  simp [tail, h]

omit [Scalar ν] in
theorem tail_succ {op : Operator} (h : operator? (peek last ts pos).kind = some op) :
    tail operator? last ts next (rounds + 1) left pos =
      next (advance ts pos) >>= fun r ↦ tail operator? last ts next rounds (bin op left r.1) r.2 := by
  simp [tail, h]

variable {rule : List Token → Except Error (Expr ν × List Token)}
  {more : Expr ν → List Token → Except Error (Expr ν × List Token)}

omit [Scalar ν] in
theorem agrees_tail_of_none (hmore : GoesOn operator? rule more) (hstart : start < pos)
    (hle : pos ≤ ts.length) (hends : pos = ts.length → last.endsOperand = true)
    (h : operator? (peek last ts pos).kind = none) :
    Agrees ts enough (At last ts start) (tail operator? last ts next rounds left pos)
      (more left (ts.drop pos)) := by
  have hmore : more left (ts.drop pos) = .ok (left, ts.drop pos) := by
    rcases at_end_or_cons hle with ⟨rfl, hnil⟩ | ⟨t, rest, hlt, hcons, -⟩
    · rw [hnil, hmore.nil]
    · rw [peek_of_drop_eq_cons hcons] at h
      rw [hcons, hmore.stop _ _ _ h]
  rw [tail_of_none h, hmore]
  exact .answered (.intro hstart hle hends)

omit [Scalar ν] in
/-- Each round takes an operator, so there are no more rounds than tokens left. -/
theorem agrees_tail (hlast : ts.getLast? = some last)
    (hop : ∀ t : Token, t.endsOperand = true → operator? t.kind = none)
    (hnext : Serves last ts enough start next rule) (hmore : GoesOn operator? rule more)
    (hstart : start < pos) (hle : pos ≤ ts.length) (hends : pos = ts.length → last.endsOperand = true)
    (hrounds : enough → ts.length ≤ pos + rounds) :
    Agrees ts enough (At last ts start) (tail operator? last ts next rounds left pos)
      (more left (ts.drop pos)) := by
  induction rounds generalizing left pos with
  | zero =>
      cases h : operator? (peek last ts pos).kind with
      | none => exact agrees_tail_of_none hmore hstart hle hends h
      | some op =>
          rw [tail_zero h]
          refine .cut fun henough ↦ ?_
          have hpos : pos = ts.length := Nat.le_antisymm hle (hrounds henough)
          rw [hpos, peek_length hlast, hop last (hends hpos)] at h
          cases h
  | succ rounds ih =>
      cases h : operator? (peek last ts pos).kind with
      | none => exact agrees_tail_of_none hmore hstart hle hends h
      | some op =>
          rcases at_end_or_cons hle with ⟨rfl, -⟩ | ⟨t, rest, hlt, hcons, hrest⟩
          · rw [peek_length hlast, hop last (hends rfl)] at h
            cases h
          · have ht : operator? t.kind = some op := by rwa [← peek_of_drop_eq_cons hcons]
            have hends' : t.endsOperand = false := by
              by_contra htrue
              rw [hop t (by simpa using htrue)] at ht
              cases ht
            have hwanted : Wanted last ts start (pos + 1) :=
              wanted_succ hlast hcons hlt hends' (by omega) (.inl (by omega))
            rw [tail_succ h, advance_of_lt hlt, hcons, hmore.step _ _ _ _ ht, ← hrest]
            refine (hnext _ hwanted).bind ?_
            rintro _ _ ⟨hlt', hle', hends'⟩
            exact ih (by omega) hle' hends' fun henough ↦ by have hround := hrounds henough; omega

omit [Scalar ν] in
theorem serves_chain (hlast : ts.getLast? = some last)
    (hop : ∀ t : Token, t.endsOperand = true → operator? t.kind = none)
    (hnext : Serves last ts enough start next rule) (hmore : GoesOn operator? rule more)
    (hrounds : enough → ts.length ≤ start + rounds) :
    Serves last ts enough start (chain operator? last ts next rounds)
      (fun ts ↦ rule ts >>= fun r ↦ more r.1 r.2) := by
  intro pos hpos
  refine (hnext pos hpos).bind ?_
  rintro _ _ ⟨hlt, hle, hends⟩
  have hstart := hpos.le
  exact agrees_tail hlast hop (hnext.of_le hstart) hmore hlt hle hends fun henough ↦ by
    have hround := hrounds henough
    omega

end Operators

theorem sumOperator?_of_endsOperand {t : Token} (h : t.endsOperand = true) : sumOperator? t.kind = none := by
  cases hkind : t.kind <;> simp_all [Token.endsOperand, sumOperator?]

theorem productOperator?_of_endsOperand {t : Token} (h : t.endsOperand = true) :
    productOperator? t.kind = none := by
  cases hkind : t.kind <;> simp_all [Token.endsOperand, productOperator?]

variable {signed : Run ν} {limit : Nat}

theorem serves_sum (hlast : ts.getLast? = some last)
    (hsigned : Serves last ts enough start signed fun ts ↦ bare (parseSigned last ts))
    (hlimit : enough → ts.length ≤ start + limit) :
    Serves last ts enough start (sum last ts signed limit) fun ts ↦ bare (parseSum last ts) := by
  have hproduct := serves_chain hlast (fun _ ↦ productOperator?_of_endsOperand) hsigned
    goesOn_parseProductTail hlimit
  simp only [← bare_parseProduct] at hproduct
  have hsum := serves_chain hlast (fun _ ↦ sumOperator?_of_endsOperand) hproduct goesOn_parseSumTail hlimit
  simp only [← bare_parseSum] at hsum
  exact hsum

omit [Scalar ν] in
/-- A token that is an operand by itself has been taken. -/
theorem at_succ (hlast : ts.getLast? = some last) {t : Token} {rest : List Token} {e : Expr ν} {pos : Nat}
    (h : ts.drop pos = t :: rest) (hlt : pos < ts.length) (hends : t.endsOperand = true) :
    At last ts pos (e, pos + 1) (e, ts.drop (pos + 1)) :=
  .intro (Nat.lt_succ_self _) hlt fun heq ↦ eq_last_of_drop hlast h heq ▸ hends

omit [Scalar ν] in
/-- An expression has been read, and a closing bracket after it. -/
theorem agrees_close (hlast : ts.getLast? = some last) {start' : Nat} {r : Expr ν × Nat}
    {r' : Expr ν × List Token} (h : At last ts start' r r') (hle : start ≤ start') (f : Expr ν → Expr ν) :
    Agrees ts enough (At last ts start)
      (expect .closeBracket last ts r.2 >>= fun pos ↦ pure (f r.1, pos))
      (Expr.expect .closeBracket last r'.2 >>= fun rest ↦ .ok (f r'.1, rest)) := by
  rcases h with ⟨hlt, hle', -⟩
  refine (agrees_expect hlast hle').bind ?_
  rintro p _ ⟨rfl, hp, hp', hclose⟩
  refine .answered (.intro (by omega) hp' fun heq ↦ ?_)
  simp [Token.endsOperand, hclose heq]

/-- The name of a function has been taken. -/
theorem agrees_call (hlast : ts.getLast? = some last) (hlt : start < ts.length)
    (hsum : Serves last ts enough (start + 1) (sum last ts signed limit) fun ts ↦ bare (parseSum last ts))
    {t : Token} {f : Function} (hcons : ts.drop start = t :: ts.drop (start + 1))
    (hkind : t.kind = .identifier) (hname : Function.ofName? t.text = some f) :
    Agrees ts enough (At last ts start)
      (if (peek last ts (start + 1)).kind = .openBracket then do
        let (e, pos) ← sum last ts signed limit (advance ts (start + 1))
        if (peek last ts pos).kind = .comma then refuse last ts pos fun _ => .oneArgument f
        else do
          let pos ← expect .closeBracket last ts pos
          pure (call f e, pos)
      else throw (.syntaxError t.stop (.noBracket f)))
      (bare (parseOperand last (t :: ts.drop (start + 1)))) := by
  rcases at_end_or_cons (Nat.succ_le_of_lt hlt) with ⟨heq, hnil⟩ | ⟨u, rest, hlt', hcons', rfl⟩
  · have hu : (peek last ts (start + 1)).kind ≠ .openBracket := by
      rw [show start + 1 = ts.length from heq, peek_length hlast, ← eq_last_of_drop hlast hcons heq, hkind]
      exact nofun
    have hrest : ts.drop (start + 1) = [] := hnil
    rw [if_neg hu, bare_parseOperand_noBracket hkind hname (by simp [hrest])]
    exact .refused fun _ ↦ nofun
  · have hrest : ts.drop (start + 1) = u :: ts.drop (start + 1 + 1) := hcons'
    rw [peek_of_drop_eq_cons hrest, hrest]
    split
    · next hopen =>
      have hwanted : Wanted last ts (start + 1) (start + 1 + 1) :=
        wanted_succ hlast hrest hlt' (by simp [Token.endsOperand, hopen]) (Nat.le_succ _)
          (.inl (Nat.lt_succ_self _))
      rw [bare_parseOperand_call hkind hname hopen, advance_of_lt hlt']
      refine (hsum _ hwanted).bind ?_
      rintro ⟨e, p⟩ _ ⟨hlt', hle', hends'⟩
      dsimp only
      rw [peek_eq_ahead hlast hle']
      split
      · unfold refuse Expr.refuse
        rw [peek_eq_ahead hlast hle']
        exact .refused fun _ ↦ nofun
      · exact agrees_close hlast (At.intro hlt' hle' hends') (by omega) (call f)
    · next hopen =>
      rw [bare_parseOperand_noBracket hkind hname (by simpa using hopen)]
      exact .refused fun _ ↦ nofun

theorem agrees_operand (hlast : ts.getLast? = some last) (hlt : start < ts.length)
    (hsigned : Serves last ts enough (start + 1) signed fun ts ↦ bare (parseSigned last ts))
    (hlimit : enough → ts.length ≤ start + 1 + limit) :
    Agrees ts enough (At last ts start) (operand last ts signed limit start)
      (bare (parseOperand last (ts.drop start))) := by
  have hsum := serves_sum hlast hsigned hlimit
  rcases at_end_or_cons (Nat.le_of_lt hlt) with ⟨heq, -⟩ | ⟨t, rest, -, hcons, rfl⟩
  · exact absurd heq (Nat.ne_of_lt hlt)
  rw [hcons]
  unfold operand
  rw [peek_of_drop_eq_cons hcons, advance_of_lt hlt]
  cases hkind : t.kind with
  | number =>
      rw [bare_parseOperand_number hkind]
      cases hread : (Scalar.read? t.text : Option ν) with
      | none =>
          simp only [hkind, hread]
          exact .refused fun _ ↦ nofun
      | some x =>
          simp only [hkind, hread]
          exact .answered (at_succ hlast hcons hlt (by simp [Token.endsOperand, hkind]))
  | openBracket =>
      have hwanted : Wanted last ts (start + 1) (start + 1) :=
        wanted_succ hlast hcons hlt (by simp [Token.endsOperand, hkind]) (Nat.le_refl _)
          (.inr (.inr (.inr hkind)))
      rw [bare_parseOperand_brackets hkind]
      simp only [hkind]
      refine (hsum _ hwanted).bind fun r r' hr ↦ ?_
      exact agrees_close hlast hr (Nat.le_succ _) id
  | identifier =>
      cases hname : Function.ofName? t.text with
      | none =>
          rw [bare_parseOperand_symbol hkind hname]
          simp only [hkind, hname]
          exact .answered (at_succ hlast hcons hlt (by simp [Token.endsOperand, hkind]))
      | some f =>
          simp only [hkind, hname]
          exact agrees_call hlast hlt hsum hcons hkind hname
  | _ =>
      rw [bare_parseOperand_other (by simp [Token.startsOperand, hkind])]
      simp only [hkind]
      exact .refused fun _ ↦ nofun

theorem agrees_power (hlast : ts.getLast? = some last) (hlt : start < ts.length)
    (hsigned : Serves last ts enough (start + 1) signed fun ts ↦ bare (parseSigned last ts))
    (hlimit : enough → ts.length ≤ start + 1 + limit) :
    Agrees ts enough (At last ts start) (power last ts signed limit start)
      (bare (parsePower last (ts.drop start))) := by
  rw [bare_parsePower]
  refine (agrees_operand hlast hlt hsigned hlimit).bind ?_
  rintro ⟨base, p⟩ _ ⟨hp, hle, hends⟩
  dsimp only
  rcases at_end_or_cons hle with ⟨rfl, hnil⟩ | ⟨t, rest, hlt', hcons, rfl⟩
  · have hcaret : ¬(peek last ts ts.length).kind = .caret := by
      intro h
      rw [peek_length hlast] at h
      simp [Token.endsOperand, h] at hends
    have hat : At last ts start (base, ts.length) (base, []) := hnil ▸ At.intro hp hle hends
    rw [if_neg hcaret, hnil]
    exact .answered hat
  · rw [peek_of_drop_eq_cons hcons, hcons]
    dsimp only
    split
    · next hcaret =>
      have hwanted : Wanted last ts (start + 1) (p + 1) :=
        wanted_succ hlast hcons hlt' (by simp [Token.endsOperand, hcaret]) (by omega) (.inl (by omega))
      rw [advance_of_lt hlt']
      refine (hsigned _ hwanted).bind ?_
      rintro _ _ ⟨hlt'', hle', hends'⟩
      exact .answered (.intro (by omega) hle' hends')
    · rw [← hcons]
      exact .answered (.intro hp hle hends)

end Rules

/-! ## Signs -/

section Signs

variable {last : Token} {ts : List Token}

/-- A sign or an open bracket at the end is taken until the limit cuts it off. -/
theorem signed_length (hlast : ts.getLast? = some last) (h : Endless last) (limit : Nat) :
    signed (ν := ν) last ts limit ts.length = ExceptT.mk none := by
  induction limit with
  | zero => rfl
  | succ limit ih =>
      unfold signed
      rw [peek_length hlast, advance_length, ih]
      rcases h with h | h | h
      · rw [if_pos h]
        rfl
      · rw [if_neg (by simp [h]), if_pos h]
      · rw [if_neg (by simp [h]), if_neg (by simp [h])]
        simp only [power, operand, sum, chain, peek_length hlast, advance_length, h, ih]
        rfl

/-- The limit is at least the number of tokens left; at the end one call is still to be made, unless it
never ends. -/
def Enough (last : Token) (ts : List Token) (limit pos : Nat) : Prop :=
  ts.length ≤ pos + limit ∧ (pos = ts.length → limit ≠ 0 ∨ Endless last)

/-- At the end no operand follows another last token. -/
theorem signed_succ_length (hlast : ts.getLast? = some last) (h : ¬Endless last)
    (hends : last.endsOperand = false) (limit : Nat) :
    signed (ν := ν) last ts (limit + 1) ts.length = throw (.syntaxError last.start (noOperand last)) := by
  simp only [Endless, not_or] at h
  obtain ⟨hminus, hplus, hopen⟩ := h
  have hnumber : last.kind ≠ .number := fun hkind ↦ by simp [Token.endsOperand, hkind] at hends
  have hidentifier : last.kind ≠ .identifier := fun hkind ↦ by simp [Token.endsOperand, hkind] at hends
  unfold signed
  rw [peek_length hlast, if_neg hminus, if_neg hplus]
  unfold power operand
  rw [peek_length hlast]
  dsimp only
  split
  · next hkind => exact absurd hkind hnumber
  · next hkind => exact absurd hkind hopen
  · next hkind => exact absurd hkind hidentifier
  · rfl

/-- At most one call is pending for each token. -/
theorem agrees_signed (hlast : ts.getLast? = some last) {limit pos : Nat} (hle : pos ≤ ts.length)
    (hends : pos = ts.length → last.endsOperand = false) :
    Agrees ts (Enough last ts limit pos) (At (ν := ν) last ts pos) (signed last ts limit pos)
      (bare (parseSigned last (ts.drop pos))) := by
  induction limit generalizing pos with
  | zero =>
      by_cases h : pos = ts.length ∧ Endless last
      · rw [h.1, List.drop_length, bare_parseSigned_nil, h.2.pastEnd_eq]
        exact .endless ⟨last, hlast, h.2⟩
      · refine .cut fun ⟨hlimit, hend⟩ ↦ h ?_
        have hpos : pos = ts.length := Nat.le_antisymm hle hlimit
        exact ⟨hpos, (hend hpos).resolve_left (absurd rfl)⟩
  | succ limit ih =>
      rcases at_end_or_cons hle with ⟨rfl, hnil⟩ | ⟨t, rest, hlt, hcons, rfl⟩
      · rw [hnil, bare_parseSigned_nil]
        by_cases h : Endless last
        · rw [signed_length hlast h, h.pastEnd_eq]
          exact .endless ⟨last, hlast, h⟩
        · rw [signed_succ_length hlast h (hends rfl), pastEnd_eq_noOperand h]
          exact .refused fun _ ↦ nofun
      · have hserves : Serves last ts (Enough last ts (limit + 1) pos) (pos + 1)
            (signed (ν := ν) last ts limit) fun ts ↦ bare (parseSigned last ts) := by
          intro q hq
          refine (ih hq.le_length hq.ends).of_imp fun ⟨hlimit, _⟩ ↦ ?_
          have hle' := hq.le
          exact ⟨by omega, fun heq ↦ (hq.room heq).imp_left fun hroom ↦ by omega⟩
        unfold signed
        rw [peek_of_drop_eq_cons hcons, advance_of_lt hlt]
        split
        · next hminus =>
          have hwanted : Wanted last ts (pos + 1) (pos + 1) :=
            wanted_succ hlast hcons hlt (by simp [Token.endsOperand, hminus]) (Nat.le_refl _)
              (.inr (.inl hminus))
          rw [hcons, bare_parseSigned_minus hminus]
          refine (hserves _ hwanted).bind ?_
          rintro _ _ ⟨hlt', hle', hends'⟩
          exact .answered (.intro (by omega) hle' hends')
        · next hminus =>
          split
          · next hplus =>
            have hwanted : Wanted last ts (pos + 1) (pos + 1) :=
              wanted_succ hlast hcons hlt (by simp [Token.endsOperand, hplus]) (Nat.le_refl _)
                (.inr (.inr (.inl hplus)))
            rw [hcons, bare_parseSigned_plus hplus]
            exact (hserves _ hwanted).imp fun _ _ h ↦ h.of_le (Nat.le_succ _)
          · next hplus =>
            rw [hcons, bare_parseSigned_unsigned hminus hplus, ← hcons]
            exact agrees_power hlast hlt hserves fun h ↦ by have hround := h.1; omega

end Signs

/-! ## Whole lists of tokens -/

section Whole

variable {last : Token} {ts : List Token} {limit : Nat}

omit [Scalar ν] in
theorem bare_bind {n : Nat} {x : Except Error (Parsed ν n)} {k : Expr ν × List Token → Except Error α} :
    bare x >>= k = x >>= fun r ↦ k r.1 := by
  cases x <;> rfl

theorem agrees_finish (hlast : ts.getLast? = some last) {enough : Prop} {what : String} {pos : Nat}
    (hle : pos ≤ ts.length) (a : α) :
    Agrees ts enough Eq (finish what last ts pos a) (Expr.finish what last (ts.drop pos) a) := by
  unfold finish Expr.finish refuse Expr.refuse
  rw [peek_eq_ahead hlast hle]
  split
  · exact .answered rfl
  · exact .refused fun _ ↦ nofun

theorem serves_top (hlast : ts.getLast? = some last) (limit : Nat) :
    Serves last ts (ts.length ≤ limit) 0 (sum (ν := ν) last ts (signed last ts limit) limit)
      fun ts ↦ bare (parseSum last ts) := by
  have hne : 0 < ts.length := List.length_pos_of_ne_nil fun h ↦ by simp [h] at hlast
  refine serves_sum hlast (fun pos hpos ↦ ?_) fun h ↦ by omega
  exact (agrees_signed hlast hpos.le_length hpos.ends).of_imp fun h ↦ ⟨by omega, fun _ ↦ .inl (by omega)⟩

theorem wanted_zero (hlast : ts.getLast? = some last) : Wanted last ts 0 0 := by
  have hne : ts.length ≠ 0 := fun h ↦ by simp [List.length_eq_zero_iff.mp h] at hlast
  exact ⟨Nat.le_refl _, Nat.zero_le _, fun h ↦ absurd h.symm hne, fun h ↦ absurd h.symm hne⟩

theorem agrees_expression (limit : Nat) (ts : List Token) :
    Agrees ts (ts.length ≤ limit) Eq (expression (ν := ν) limit ts) (ofTokens ts) := by
  unfold expression ofTokens
  cases hlast : ts.getLast? with
  | none => exact .refused fun _ ↦ nofun
  | some last =>
      have hsum := serves_top (ν := ν) hlast limit 0 (wanted_zero hlast)
      have hread := hsum.bind (f := fun r ↦ finish "expression" last ts r.2 r.1)
        (g := fun r ↦ Expr.finish "expression" last r.2 r.1) (S := Eq) ?_
      · rw [bare_bind] at hread
        exact hread
      · rintro _ _ ⟨-, hle, -⟩
        exact agrees_finish hlast hle _

theorem agrees_equation (limit : Nat) (ts : List Token) :
    Agrees ts (ts.length ≤ limit) Eq (equation (ν := ν) limit ts) (Equation.ofTokens ts) := by
  unfold equation Equation.ofTokens
  cases hlast : ts.getLast? with
  | none => exact .refused fun _ ↦ nofun
  | some last =>
      have hserves := serves_top (ν := ν) hlast limit
      have hread : Agrees ts (ts.length ≤ limit) Eq
          (sum last ts (signed (ν := ν) last ts limit) limit 0 >>= fun r ↦
            expect .equals last ts r.2 >>= fun pos ↦
            sum last ts (signed last ts limit) limit pos >>= fun r' ↦
            finish "equation" last ts r'.2 (Equation.mk r.1 r'.1))
          (bare (parseSum last ts) >>= fun r ↦ Expr.expect .equals last r.2 >>= fun rest ↦
            bare (parseSum last rest) >>= fun r' ↦ Expr.finish "equation" last r'.2 ⟨r.1, r'.1⟩) := by
        refine (hserves 0 (wanted_zero hlast)).bind ?_
        rintro _ _ ⟨hlt, hle, -⟩
        refine (agrees_expect hlast hle).bind ?_
        rintro p _ ⟨rfl, hp, hp', hequals⟩
        have hwanted : Wanted last ts 0 p :=
          ⟨Nat.zero_le _, hp', fun heq ↦ by simp [Token.endsOperand, hequals heq], fun _ ↦ .inl (by omega)⟩
        refine (hserves p hwanted).bind ?_
        rintro _ _ ⟨-, hle', -⟩
        exact agrees_finish hlast hle' _
      simp only [bare_bind] at hread
      exact hread

/-- With as many pending calls as there are tokens, what the cursor reads is the equation they write. -/
theorem equation_length_iff {q : Equation ν} :
    (equation ts.length ts).run = some (.ok q) ↔ Equation.ofTokens ts = .ok q := by
  have hagrees := agrees_equation (ν := ν) ts.length ts
  generalize (equation ts.length ts : Limited (Equation ν)) = x at hagrees ⊢
  generalize (Equation.ofTokens ts : Except Error (Equation ν)) = y at hagrees ⊢
  cases hagrees with
  | cut hcut => exact absurd (Nat.le_refl _) hcut
  | endless => exact ⟨nofun, nofun⟩
  | refused => exact ⟨nofun, nofun⟩
  | answered heq =>
      rw [← heq]
      exact ⟨fun h ↦ Option.some.inj h, fun h ↦ congrArg some h⟩

/-- The equation that tokens write, if they write one. -/
def equation? (ts : List Token) : Option (Equation ν) :=
  (equation ts.length ts).run.bind Except.toOption

theorem equation?_eq_some_iff {q : Equation ν} : equation? ts = some q ↔ Equation.ofTokens ts = .ok q := by
  rw [← equation_length_iff, equation?, Option.bind_eq_some_iff]
  constructor
  · rintro ⟨x, hrun, hx⟩
    rw [hrun, eq_ok_of_toOption hx]
  · exact fun hrun ↦ ⟨_, hrun, rfl⟩

/-! ### What becomes of a list -/

/-- A parser finishes: with a pending call for each token it gives the answer, which is a value or a syntax
error. -/
def Finishes (ts : List Token) (run : Nat → Limited α) (answer : Except Error α) : Prop :=
  (∀ limit, ts.length ≤ limit → run limit = ExceptT.mk (some answer)) ∧
    ((∃ a, answer = .ok a) ∨ ∃ position problem, answer = .error (.syntaxError position problem))

/-- A parser never finishes: every limit cuts it off. -/
def Diverges (run : Nat → Limited α) : Prop := ∀ limit, run limit = ExceptT.mk none

theorem finishes_or_diverges {run : Nat → Limited α} {answer : Except Error α}
    (h : ∀ limit, Agrees ts (ts.length ≤ limit) Eq (run limit) answer) :
    Finishes ts run answer ∨ EndsOpen ts ∧ Diverges run ∧
      ∃ position kind, answer = .error (.syntaxError position (.endless kind)) := by
  cases answer with
  | ok a =>
      refine .inl ⟨fun limit hlimit ↦ ?_, .inl ⟨a, rfl⟩⟩
      have hrun := h limit
      generalize run limit = x at hrun
      cases hrun with
      | cut hcut => exact absurd hlimit hcut
      | answered heq => rw [heq]; rfl
  | error e =>
      have hlength := h ts.length
      generalize run ts.length = x at hlength
      cases hlength with
      | cut hcut => exact absurd (Nat.le_refl _) hcut
      | @endless position kind hopen =>
          refine .inr ⟨hopen, fun limit ↦ ?_, position, kind, rfl⟩
          have hrun := h limit
          generalize run limit = x at hrun
          cases hrun with
          | cut => rfl
          | endless => rfl
          | refused hne => exact absurd rfl (hne kind)
      | @refused position problem hne =>
          refine .inl ⟨fun limit hlimit ↦ ?_, .inr ⟨position, problem, rfl⟩⟩
          have hrun := h limit
          generalize run limit = x at hrun
          cases hrun with
          | cut hcut => exact absurd hlimit hcut
          | endless => exact absurd rfl (hne _)
          | refused => rfl

/-- What has been read moves the cursor forward. -/
theorem lt_of_signed_eq_pure (hlast : ts.getLast? = some last) {pos : Nat} (hpos : pos < ts.length)
    {r : Expr ν × Nat} (h : signed last ts limit pos = pure r) : pos < r.2 ∧ r.2 ≤ ts.length := by
  have hagrees : Agrees ts (Enough last ts limit pos) (At (ν := ν) last ts pos) (signed last ts limit pos)
      (bare (parseSigned last (ts.drop pos))) :=
    agrees_signed hlast (Nat.le_of_lt hpos) fun heq ↦ absurd heq (Nat.ne_of_lt hpos)
  rw [h] at hagrees
  generalize hx : (pure r : Limited (Expr ν × Nat)) = x at hagrees
  generalize bare (ν := ν) (parseSigned last (ts.drop pos)) = y at hagrees
  cases hagrees with
  | cut => cases hx
  | endless => cases hx
  | refused => cases hx
  | answered hat =>
      cases hx
      rcases hat with ⟨hlt, hle, -⟩
      exact ⟨hlt, hle⟩

/-- **Either parser finishes on every list of tokens with at most one pending call for each token, and gives
a value or a syntax error; but on lists that end with a sign or an open bracket it never finishes where an
operand is wanted after that token.** -/
theorem finishes_or_endsOpen (ts : List Token) :
    (Finishes ts (fun limit ↦ expression (ν := ν) limit ts) (ofTokens ts) ∨
      EndsOpen ts ∧ Diverges (fun limit ↦ expression (ν := ν) limit ts) ∧
        ∃ position kind, (ofTokens ts : Except Error (Expr ν)) =
          .error (.syntaxError position (.endless kind))) ∧
    (Finishes ts (fun limit ↦ equation (ν := ν) limit ts) (Equation.ofTokens ts) ∨
      EndsOpen ts ∧ Diverges (fun limit ↦ equation (ν := ν) limit ts) ∧
        ∃ position kind, (Equation.ofTokens ts : Except Error (Equation ν)) =
          .error (.syntaxError position (.endless kind))) ∧
    ∀ last limit pos, ts.getLast? = some last → pos < ts.length →
      ∀ r : Expr ν × Nat, signed last ts limit pos = pure r → pos < r.2 ∧ r.2 ≤ ts.length :=
  ⟨finishes_or_diverges fun limit ↦ agrees_expression limit ts,
    finishes_or_diverges fun limit ↦ agrees_equation limit ts,
    fun _ _ _ hlast hpos _ h ↦ lt_of_signed_eq_pure hlast hpos h⟩

/-- A minus and nothing else. -/
def minus : Token := ⟨.minus, 0, 1, "-"⟩

/-- A lone minus is taken again and again. -/
theorem diverges_minus : Diverges fun limit ↦ expression (ν := Float) limit [minus] := by
  intro limit
  have hsigned : signed (ν := Float) minus [minus] limit 0 = ExceptT.mk none := by
    cases limit with
    | zero => rfl
    | succ limit =>
        have hend : signed (ν := Float) minus [minus] limit 1 = ExceptT.mk none :=
          signed_length rfl (.inl rfl) limit
        change signed minus [minus] limit 1 >>= _ = _
        rw [hend]
        rfl
  change chain _ _ _ (chain _ _ _ (signed minus [minus] limit) _) _ 0 >>= _ = _
  simp only [chain, hsigned]
  rfl

end Whole

end FormulaNet.Expr.Cursor

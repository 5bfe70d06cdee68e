import FormulaNet.Proofs.Knowledge.Integrity

/-!
# Attempts to write

Every write tries to put one entry in.  An insertion brings the id of the entry along; an addition takes the id
that the kind of the entry has counted on to, and has used it up by the time that it is known whether the entry
goes in.  What a write answers and what it leaves both follow from the one attempt.
-/

namespace FormulaNet

/-- The kinds of entries, numbered each on their own. -/
inductive Kind where
  | quantity
  | constant
  | formula
  deriving DecidableEq

namespace Write

/-- The kind of the entry that is written. -/
def kind : Write → Kind
  | .insertQuantity _ | .addQuantity .. => .quantity
  | .insertConstant _ | .addConstant .. => .constant
  | .insertFormula _ | .addFormula .. => .formula

/-- The id that an insertion brings along; an addition brings none. -/
def id? : Write → Option Nat
  | .insertQuantity q => some q.id
  | .insertConstant a => some a.id
  | .insertFormula f => some f.id
  | .addQuantity .. | .addConstant .. | .addFormula .. => none

end Write

namespace Catalogue

variable {c c' : Catalogue} {w : Write} {e : Failure} {k kind : Kind} {i : Nat}

/-- What a write answers, unless it overflows: an error, or the id if it is an addition. -/
def answer (c : Catalogue) : Write → Except Failure (Option Nat)
  | .insertQuantity q => (c.insertQuantity q).map fun _ ↦ none
  | .insertConstant a => (c.insertConstant a).map fun _ ↦ none
  | .insertFormula f => (c.insertFormula f).map fun _ ↦ none
  | .addQuantity name symbol unit => (c.addQuantity name symbol unit).1.map some
  | .addConstant name symbol value unit => (c.addConstant name symbol value unit).1.map some
  | .addFormula name expression quantities constants =>
    (c.addFormula name expression quantities constants).1.map some

/-! ## Ids -/

/-- The id that the next addition of a kind takes. -/
def next (c : Catalogue) : Kind → Nat
  | .quantity => c.nextQuantity
  | .constant => c.nextConstant
  | .formula => c.nextFormula

/-- The ids that entries of a kind stand under. -/
def Stores (c : Catalogue) : Kind → Nat → Prop
  | .quantity, i => i ∈ c.quantities
  | .constant, i => i ∈ c.constants
  | .formula, i => i ∈ c.formulas

/-- The catalogue with the next id of a kind used up. -/
def spend (c : Catalogue) : Kind → Catalogue
  | .quantity => { c with nextQuantity := Ids.next c.nextQuantity }
  | .constant => { c with nextConstant := Ids.next c.nextConstant }
  | .formula => { c with nextFormula := Ids.next c.nextFormula }

theorem next_spend : (c.spend kind).next k = if k = kind then Ids.next (c.next k) else c.next k := by
  cases kind <;> cases k <;> rfl

theorem stores_spend : (c.spend kind).Stores k i ↔ c.Stores k i := by
  cases kind <;> cases k <;> rfl

/-! ## One attempt -/

/-- The catalogue that an entry is put into, or not. -/
def prepared (c : Catalogue) (w : Write) : Catalogue := if w.id? = none then c.spend w.kind else c

/-- The catalogue with the entry put in. -/
def attempt (c : Catalogue) : Write → Except Failure Catalogue
  | .insertQuantity q => c.insertQuantity q
  | .insertConstant a => c.insertConstant a
  | .insertFormula f => c.insertFormula f
  | .addQuantity name symbol unit =>
    (c.spend .quantity).insertQuantity { id := c.nextQuantity, name, symbol, unit }
  | .addConstant name symbol value unit =>
    (c.spend .constant).insertConstant { id := c.nextConstant, name, symbol, value, unit }
  | .addFormula name expression quantities constants =>
    let f : Formula := { id := c.nextFormula, name, expression, quantities := [], constants := [] }
    (c.spend .formula).insertFormula ((f.withQuantities quantities).withConstants constants)

theorem map_some_afterAdding (spent : Catalogue) (i : Nat) (attempt : Except Failure Catalogue) :
    (afterAdding spent i attempt).1.map some = attempt.map fun _ ↦ some i := by
  cases attempt <;> rfl

theorem afterAdding_snd (spent : Catalogue) (i : Nat) (attempt : Except Failure Catalogue) :
    (afterAdding spent i attempt).2 = attempt.toOption.getD spent := by
  cases attempt <;> rfl

/-- An attempt that succeeds is answered, if it is an addition, with the id that it took. -/
theorem answer_eq (c : Catalogue) (w : Write) :
    c.answer w = (c.attempt w).map fun _ ↦ if w.id? = none then some (c.next w.kind) else none := by
  cases w with
  | insertQuantity q => rfl
  | insertConstant a => rfl
  | insertFormula f => rfl
  | addQuantity name symbol unit => exact map_some_afterAdding _ _ _
  | addConstant name symbol value unit => exact map_some_afterAdding _ _ _
  | addFormula name expression quantities constants => exact map_some_afterAdding _ _ _

/-- An attempt that fails leaves the catalogue as it was prepared. -/
theorem write_eq (c : Catalogue) (w : Write) : c.write w = (c.attempt w).toOption.getD (c.prepared w) := by
  cases w with
  | insertQuantity q => rfl
  | insertConstant a => rfl
  | insertFormula f => rfl
  | addQuantity name symbol unit => exact afterAdding_snd _ _ _
  | addConstant name symbol value unit => exact afterAdding_snd _ _ _
  | addFormula name expression quantities constants => exact afterAdding_snd _ _ _

theorem answer_eq_error_iff : c.answer w = .error e ↔ c.attempt w = .error e := by
  rw [answer_eq]
  cases c.attempt w <;> simp [Except.map]

/-- A write that is answered is refused unless the entry goes in. -/
theorem refused_iff (h : c.answer w ≠ .error .overflow) :
    (∃ e, c.answer w = .error (.refused e)) ↔ ¬∃ c', c.attempt w = .ok c' := by
  simp only [ne_eq, answer_eq_error_iff] at h ⊢
  cases hattempt : c.attempt w with
  | ok c' => simp
  | error e =>
    cases e with
    | refused e => simp
    | overflow => exact absurd hattempt h

/-- The id in an answer is the one that an addition took. -/
theorem answer_eq_some_iff :
    c.answer w = .ok (some i) ↔ (∃ c', c.attempt w = .ok c') ∧ w.id? = none ∧ c.next w.kind = i := by
  rw [answer_eq, map_eq_ok_iff, exists_and_right]
  refine and_congr_right fun _ ↦ ?_
  split <;> simp_all

end Catalogue

end FormulaNet

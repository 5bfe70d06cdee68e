import FormulaNet.Proofs.Knowledge.Attempts

/-!
# Refused writes

A write takes several steps.  It asks whether names and ids are free and whether what a formula refers to is
there, and it changes up to three tables and a counter, one after the other.  Taken step by step, a write that
is refused leaves whatever the steps before the refusal have made of the catalogue.  That nothing can be told
apart by reading then is because all steps that ask come before those that change a table; only a counter
moves earlier, when an addition uses up its id.  An overflow is no refusal: it comes last, with the entry in.
-/

namespace FormulaNet

/-! ## Writing step by step -/

/-- Steps that read and change a catalogue and may end early.  What has been changed until then stays
changed. -/
abbrev Writing (α : Type) : Type := ExceptT Catalogue.Failure (StateM Catalogue) α

namespace Writing

variable {α β : Type} {c : Catalogue}

/-- What comes of the steps, and the catalogue that they leave. -/
def on (x : Writing α) (c : Catalogue) : Except Catalogue.Failure α × Catalogue := x.run.run c

@[simp] theorem on_modify (f : Catalogue → Catalogue) : on (modify f) c = (.ok (), f c) := rfl

@[simp] theorem on_get_bind (f : Catalogue → Writing α) : on (get >>= f) c = (f c).on c := rfl

@[simp] theorem on_modify_bind (f : Catalogue → Catalogue) (x : Unit → Writing α) :
    on (modify f >>= x) c = (x ()).on (f c) := rfl

/-- Steps are taken one after the other until one of them ends with an error. -/
theorem on_bind (x : Writing α) (f : α → Writing β) :
    on (x >>= f) c =
      match on x c with
      | (.ok a, c') => on (f a) c'
      | (.error e, c') => (.error e, c') := by
  unfold on
  rw [ExceptT.run_bind, StateT.run_bind]
  match x.run.run c with
  | (.ok a, c') => rfl
  | (.error e, c') => rfl

/-- Ends with the error that there is with the catalogue, if there is one. -/
def refuse (problem? : Catalogue → Option Error) : Writing Unit := do
  match problem? (← get) with
  | some e => throw (.refused e)
  | none => pure ()

@[simp] theorem on_refuse_bind (problem? : Catalogue → Option Error) (x : Unit → Writing α) :
    on (refuse problem? >>= x) c =
      match problem? c with
      | some e => (.error (.refused e), c)
      | none => (x ()).on c := by
  rw [refuse, bind_assoc, on_get_bind]
  cases problem? c <;> rfl

/-- Counts on from an id, starting from where counting is in the catalogue. -/
def count (next : Catalogue → Nat) (goOn : Nat → Catalogue → Catalogue) (id : Nat) : Writing Unit := do
  match Catalogue.countOn (next (← get)) id with
  | .ok n => modify (goOn n)
  | .error e => throw e

theorem on_count (next : Catalogue → Nat) (goOn : Nat → Catalogue → Catalogue) (id : Nat) :
    on (count next goOn id) c =
      match Catalogue.countOn (next c) id with
      | .ok n => (.ok (), goOn n c)
      | .error e => (.error e, c) := by
  rw [count, on_get_bind]
  cases Catalogue.countOn (next c) id <;> rfl

/-- Enters a quantity into the names, the quantities and the members. -/
def enterQuantity (q : Quantity) : Writing Unit := do
  refuse fun c ↦ if q.name ∈ c.names then some (.invalidInput (.quantityNameTaken q.name)) else none
  refuse fun c ↦ if q.id ∈ c.quantities then some (.invalidInput (.quantityTaken q.id)) else none
  modify fun c ↦ { c with names := c.names.insert q.name q.id }
  modify fun c ↦ { c with quantities := c.quantities.insert q.id q }
  modify fun c ↦ { c with members := c.members.insert q.id (c.members.getD q.id []) }
  count Catalogue.nextQuantity (fun n c ↦ { c with nextQuantity := n }) q.id

def enterConstant (k : Constant Float) : Writing Unit := do
  refuse fun c ↦ if k.id ∈ c.constants then some (.invalidInput (.constantTaken k.id)) else none
  modify fun c ↦ { c with constants := c.constants.insert k.id k }
  count Catalogue.nextConstant (fun n c ↦ { c with nextConstant := n }) k.id

/-- Notes a formula under one of its quantities. -/
def enterMember (i : FormulaId) (q : QuantityId) : Writing Unit :=
  modify fun c ↦ { c with members := c.members.insert q (Ids.insert i (c.members.getD q [])) }

/-- Enters a formula into the members, quantity by quantity, and into the formulas. -/
def enterFormula (f : Formula) : Writing Unit := do
  let f := Catalogue.withoutRepeats f
  refuse fun _ ↦ if f.arity = 0 then some (.invalidInput (.formulaWithoutQuantities f.name)) else none
  refuse fun c ↦ (f.quantities.find? (· ∉ c.quantities)).map fun q ↦ .notFound (.quantityOf q f.id)
  refuse fun c ↦ (f.constants.find? (· ∉ c.constants)).map fun k ↦ .notFound (.constantOf k f.id)
  refuse fun c ↦ if f.id ∈ c.formulas then some (.invalidInput (.formulaTaken f.id)) else none
  f.quantities.forM (enterMember f.id)
  modify fun c ↦ { c with formulas := c.formulas.insert f.id f }
  count Catalogue.nextFormula (fun n c ↦ { c with nextFormula := n }) f.id

/-! ### Steps and whole writes -/

/-- Steps taken in a catalogue end as the attempt to change it as a whole does.  Only where they stop at an
overflow, they leave a catalogue and the attempt does not. -/
def EndAs (ended : Except Catalogue.Failure α × Catalogue) (a : α) (c : Catalogue) :
    Except Catalogue.Failure Catalogue → Prop
  | .ok c' => ended = (.ok a, c')
  | .error (.refused e) => ended = (.error (.refused e), c)
  | .error .overflow => ended.1 = .error .overflow

/-- Counting on comes last, and is where an overflow can occur. -/
theorem endAs_count {next : Catalogue → Nat} {goOn : Nat → Catalogue → Catalogue} {id : Nat}
    {put : Nat → Catalogue} {entered : Catalogue} (hput : ∀ n, goOn n entered = put n) :
    EndAs ((count next goOn id).on entered) () c ((Catalogue.countOn (next entered) id).map put) := by
  rw [on_count, Catalogue.countOn]
  by_cases h : id < Ids.last
  · rw [if_pos h]
    exact congrArg (Prod.mk _) (hput _)
  · rw [if_neg h]
    exact rfl

theorem endAs_enterQuantity (q : Quantity) :
    EndAs ((enterQuantity q).on c) () c (c.insertQuantity q) := by
  unfold enterQuantity Catalogue.insertQuantity
  by_cases hname : q.name ∈ c.names
  · simp only [on_refuse_bind, hname, if_true, EndAs]
  by_cases hid : q.id ∈ c.quantities
  · simp only [on_refuse_bind, hname, hid, if_false, if_true, EndAs]
  · simp only [on_refuse_bind, on_modify_bind, hname, hid, if_false]
    exact endAs_count fun _ ↦ rfl

theorem endAs_enterConstant (k : Constant Float) :
    EndAs ((enterConstant k).on c) () c (c.insertConstant k) := by
  unfold enterConstant Catalogue.insertConstant
  by_cases hid : k.id ∈ c.constants
  · simp only [on_refuse_bind, hid, if_true, EndAs]
  · simp only [on_refuse_bind, on_modify_bind, hid, if_false]
    exact endAs_count fun _ ↦ rfl

theorem on_forM_enterMember (i : FormulaId) (qs : List QuantityId) :
    (qs.forM (enterMember i)).on c = (.ok (), { c with
      members := qs.foldl (fun members q ↦ members.insert q (Ids.insert i (members.getD q []))) c.members }) := by
  induction qs generalizing c with
  | nil => rfl
  | cons q qs ih =>
    rw [List.forM, on_bind, enterMember, on_modify]
    exact ih

theorem endAs_enterFormula (f : Formula) : EndAs ((enterFormula f).on c) () c (c.insertFormula f) := by
  unfold enterFormula Catalogue.insertFormula
  dsimp only
  generalize Catalogue.withoutRepeats f = f
  by_cases ha : f.arity = 0
  · simp only [on_refuse_bind, ha, if_true, EndAs]
  cases hq : f.quantities.find? (· ∉ c.quantities) with
  | some q => simp only [on_refuse_bind, ha, hq, if_false, Option.map_some, EndAs]
  | none =>
    cases hk : f.constants.find? (· ∉ c.constants) with
    | some k => simp only [on_refuse_bind, ha, hq, hk, if_false, Option.map_some, Option.map_none, EndAs]
    | none =>
      by_cases hid : f.id ∈ c.formulas
      · simp only [on_refuse_bind, ha, hq, hk, hid, if_false, if_true, Option.map_none, EndAs]
      · simp only [on_refuse_bind, ha, hq, hk, hid, if_false, Option.map_none]
        rw [on_bind, on_forM_enterMember]
        exact endAs_count fun _ ↦ rfl

/-- What follows and changes nothing only adds its answer. -/
theorem endAs_bind_pure {x : Writing Unit} {attempt : Except Catalogue.Failure Catalogue}
    (h : EndAs (x.on c) () c attempt) (a : α) : EndAs ((x >>= fun _ ↦ pure a).on c) a c attempt := by
  rw [on_bind]
  cases attempt with
  | ok c' =>
    have h : x.on c = (.ok (), c') := h
    rw [h]
    exact rfl
  | error e =>
    cases e with
    | refused e =>
      have h : x.on c = (.error (.refused e), c) := h
      rw [h]
      exact rfl
    | overflow =>
      obtain ⟨c', h⟩ : ∃ c', x.on c = (.error .overflow, c') := ⟨_, Prod.ext h rfl⟩
      rw [h]
      exact rfl

end Writing

open Writing in
/-- The steps of a write, and the id if it is an addition, which counts on before anything is asked. -/
def Write.steps : Write → Writing (Option Nat)
  | .insertQuantity q => do enterQuantity q; pure none
  | .insertConstant a => do enterConstant a; pure none
  | .insertFormula f => do enterFormula f; pure none
  | .addQuantity name symbol unit => do
    let id := (← get).nextQuantity
    modify fun c ↦ { c with nextQuantity := Ids.next c.nextQuantity }
    enterQuantity { id, name, symbol, unit }
    pure (some id)
  | .addConstant name symbol value unit => do
    let id := (← get).nextConstant
    modify fun c ↦ { c with nextConstant := Ids.next c.nextConstant }
    enterConstant { id, name, symbol, value, unit }
    pure (some id)
  | .addFormula name expression quantities constants => do
    let id := (← get).nextFormula
    modify fun c ↦ { c with nextFormula := Ids.next c.nextFormula }
    let f : Formula := { id, name, expression, quantities := [], constants := [] }
    enterFormula ((f.withQuantities quantities).withConstants constants)
    pure (some id)

namespace Catalogue

variable {c : Catalogue} {w : Write} {e : Error}

/-- Taken step by step, a write ends as the attempt to put its entry in. -/
theorem endAs_steps (c : Catalogue) (w : Write) :
    Writing.EndAs (w.steps.on c) (if w.id? = none then some (c.next w.kind) else none) (c.prepared w)
      (c.attempt w) := by
  cases w with
  | insertQuantity q => exact Writing.endAs_bind_pure (Writing.endAs_enterQuantity _) _
  | insertConstant a => exact Writing.endAs_bind_pure (Writing.endAs_enterConstant _) _
  | insertFormula f => exact Writing.endAs_bind_pure (Writing.endAs_enterFormula _) _
  | addQuantity name symbol unit =>
    rw [Write.steps, Writing.on_get_bind, Writing.on_modify_bind]
    exact Writing.endAs_bind_pure (Writing.endAs_enterQuantity _) _
  | addConstant name symbol value unit =>
    rw [Write.steps, Writing.on_get_bind, Writing.on_modify_bind]
    exact Writing.endAs_bind_pure (Writing.endAs_enterConstant _) _
  | addFormula name expression quantities constants =>
    rw [Write.steps, Writing.on_get_bind, Writing.on_modify_bind]
    exact Writing.endAs_bind_pure (Writing.endAs_enterFormula _) _

/-- It answers the same, and leaves the same catalogue unless there is an overflow. -/
theorem on_steps (c : Catalogue) (w : Write) :
    (w.steps.on c).1 = c.answer w ∧ (c.answer w ≠ .error .overflow → (w.steps.on c).2 = c.write w) := by
  have hends := endAs_steps c w
  rw [answer_eq, write_eq]
  generalize c.attempt w = attempt at hends ⊢
  cases attempt with
  | ok c' =>
    have hends : w.steps.on c = _ := hends
    rw [hends]
    exact ⟨rfl, fun _ ↦ rfl⟩
  | error e =>
    cases e with
    | refused e =>
      have hends : w.steps.on c = _ := hends
      rw [hends]
      exact ⟨rfl, fun _ ↦ rfl⟩
    | overflow => exact ⟨hends, fun h ↦ absurd rfl h⟩

/-! ## Reading after a refusal -/

/-- Whatever is read, two catalogues give the same answer. -/
structure ReadsAlike (c c' : Catalogue) : Prop where
  quantity : ∀ i, c.source.quantity i = c'.source.quantity i
  idByName : ∀ name, c.source.idByName name = c'.source.idByName name
  quantityByName : ∀ name, c.source.quantityByName name = c'.source.quantityByName name
  allQuantities : c.source.allQuantities = c'.source.allQuantities
  constant : ∀ i, c.source.constant i = c'.source.constant i
  formula : ∀ i, c.source.formula i = c'.source.formula i
  allFormulas : c.source.allFormulas = c'.source.allFormulas
  formulasReferencing : ∀ i, c.source.formulasReferencing i = c'.source.formulasReferencing i
  /-- A formula together with what it refers to. -/
  load : ∀ i, c.source.load i = c'.source.load i
  /-- A copy with the constants that formulas use. -/
  sourceSnapshot : c.source.snapshot = c'.source.snapshot
  /-- A copy with all constants. -/
  snapshot : c.snapshot = c'.snapshot
  quantityCount : c.quantityCount = c'.quantityCount
  formulaCount : c.formulaCount = c'.formulaCount

/-- Nothing that is read depends on the ids that come next. -/
theorem readsAlike_withNext (c : Catalogue) (q k f : Nat) :
    ReadsAlike { c with nextQuantity := q, nextConstant := k, nextFormula := f } c where
  quantity _ := rfl
  idByName _ := rfl
  quantityByName _ := rfl
  allQuantities := rfl
  constant _ := rfl
  formula _ := rfl
  allFormulas := rfl
  formulasReferencing _ := rfl
  load _ := rfl
  sourceSnapshot := rfl
  snapshot := rfl
  quantityCount := rfl
  formulaCount := rfl

/-- Preparing a write changes the ids that come next at most. -/
theorem readsAlike_prepared (c : Catalogue) (w : Write) : (c.prepared w).ReadsAlike c := by
  unfold prepared
  split
  · cases w.kind <;> exact readsAlike_withNext c _ _ _
  · exact readsAlike_withNext c _ _ _

/-- **Refused writes do not show.**  Whatever the catalogue, a write that is refused has, taken step by step,
ended with its error in a catalogue that every way of reading answers as before. -/
theorem readsAlike_of_refused (h : c.answer w = .error (.refused e)) :
    w.steps.on c = (.error (.refused e), c.write w) ∧ (c.write w).ReadsAlike c := by
  obtain ⟨hanswer, hleft⟩ := on_steps c w
  rw [h] at hanswer hleft
  refine ⟨Prod.ext hanswer (hleft nofun), ?_⟩
  rw [write_eq, answer_eq_error_iff.mp h]
  exact readsAlike_prepared c w

/-- A formula whose quantities are all there, but not its constant. -/
def friction : Write := .addFormula "friction" "F = mu * m" [1, 2] [1]

/-- It uses up an id and leaves nothing under its quantities. -/
theorem readsAlike_friction :
    mechanics.answer friction = .error (.refused (.notFound (.constantOf 1 3))) ∧
      (mechanics.write friction).ReadsAlike mechanics ∧
      (mechanics.write friction).nextFormula = mechanics.nextFormula + 1 := by
  have h : mechanics.answer friction = .error (.refused (.notFound (.constantOf 1 3))) := by rfl
  exact ⟨h, (readsAlike_of_refused h).2, by decide⟩

end Catalogue

end FormulaNet

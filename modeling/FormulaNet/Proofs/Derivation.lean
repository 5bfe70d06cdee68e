import FormulaNet.Derivation.Path
import FormulaNet.Proofs.Knowledge.Growth
import Mathlib.Tactic.Common

/-!
# What a derivation derives

A list of steps derives a target from knowns if it applies formulas only, each to all its other quantities,
in an order in which every input is at hand; if it finds nothing twice, nothing known and nothing in vain;
and if the target comes last.  `Derives` says all of this, and what depth the target gets: knowns have
depth zero, and an output lies one deeper than the deepest of its inputs.
-/

namespace FormulaNet

/-- The other quantities of a formula, in the formula's order. -/
def Formula.others (f : Formula) (q : QuantityId) : List QuantityId := f.quantities.filter (· ≠ q)

@[simp] theorem Formula.mem_others {f : Formula} {q p : QuantityId} :
    p ∈ f.others q ↔ p ∈ f.quantities ∧ p ≠ q := by
  simp [others]

namespace Step

/-- The quantity that a step finds. -/
def output? : Step → Option QuantityId
  | find _ _ _ _ output => some output
  | calculation .. => none

/-- The quantities that a step finds another one from. -/
def inputs : Step → List QuantityId
  | find _ _ _ inputs _ => inputs
  | calculation .. => []

/-- The step applies one of the formulas: to all its other quantities, in the formula's order. -/
def Applies (formulas : List Formula) (s : Step) : Prop :=
  ∃ f ∈ formulas, ∃ q ∈ f.quantities, ∃ number text, s = find number text f.id (f.others q) q

@[simp] theorem output?_withNumber (n : Nat) (s : Step) : (s.withNumber n).output? = s.output? := by
  cases s <;> rfl

@[simp] theorem inputs_withNumber (n : Nat) (s : Step) : (s.withNumber n).inputs = s.inputs := by
  cases s <;> rfl

theorem Applies.isFind {formulas : List Formula} {s : Step} (h : s.Applies formulas) : s.isFind = true := by
  obtain ⟨f, -, q, -, number, text, rfl⟩ := h
  rfl

theorem Applies.withNumber {formulas : List Formula} {s : Step} (h : s.Applies formulas) (n : Nat) :
    (s.withNumber n).Applies formulas := by
  obtain ⟨f, hf, q, hq, _, text, rfl⟩ := h
  exact ⟨f, hf, q, hq, n, text, rfl⟩

end Step

namespace Derivation

/-- The quantities that the steps find, in their order. -/
def outputs (d : Derivation) : List QuantityId := d.filterMap Step.output?

/-- The depth of an output: one more than the greatest depth among the inputs. -/
def outputDepth? (depth : QuantityId → Option Nat) (inputs : List QuantityId) : Option Nat :=
  (inputs.mapM depth).map fun depths ↦ depths.foldr max 0 + 1

/-- The depths after the steps, from the depths before them. -/
def depthsFrom (depth : QuantityId → Option Nat) : Derivation → QuantityId → Option Nat
  | [] => depth
  | .find _ _ _ inputs output :: steps =>
    depthsFrom (fun q ↦ if q = output then outputDepth? depth inputs else depth q) steps
  | .calculation .. :: steps => depthsFrom depth steps

/-- The depths of the knowns. -/
def knownDepth (known : List QuantityId) (q : QuantityId) : Option Nat :=
  if q ∈ known then some 0 else none

/-- The steps derive the target from the knowns, at this depth. -/
structure Derives (formulas : List Formula) (known : List QuantityId) (target : QuantityId) (depth : Nat)
    (d : Derivation) : Prop where
  /-- Each step applies a formula. -/
  applies : ∀ s ∈ d, s.Applies formulas
  wellOrdered : d.isWellOrdered known = true
  /-- Nothing is found twice. -/
  nodup : d.outputs.Nodup
  /-- Nothing known is found. -/
  unknown : ∀ q ∈ d.outputs, q ∉ known
  /-- What a step before the last one finds goes into a later step. -/
  used : ∀ before s after, d = before ++ s :: after → after ≠ [] →
    ∃ q, s.output? = some q ∧ ∃ t ∈ after, q ∈ t.inputs
  /-- The target comes last. -/
  last : d.getLast?.bind Step.output? = some target
  depth : d.depthsFrom (knownDepth known) target = some depth

variable {known : List QuantityId} {depth : QuantityId → Option Nat}

@[simp] theorem outputs_nil : outputs [] = [] := rfl

@[simp] theorem outputs_append (d e : Derivation) : outputs (d ++ e) = outputs d ++ outputs e :=
  List.filterMap_append

/-! ## Numbers do not matter -/

@[simp] theorem outputs_numberFrom (n : Nat) (steps : List Step) :
    outputs (numberFrom n steps) = outputs steps := by
  induction steps generalizing n with
  | nil => rfl
  | cons s steps ih =>
      change List.filterMap _ (_ :: _) = List.filterMap _ (_ :: _)
      rw [List.filterMap_cons, List.filterMap_cons, Step.output?_withNumber]
      cases s.output? with
      | none => exact ih _
      | some q => exact congrArg (q :: ·) (ih _)

theorem mem_numberFrom {n : Nat} {steps : List Step} {s : Step} (h : s ∈ numberFrom n steps) :
    ∃ t ∈ steps, ∃ m, s = t.withNumber m := by
  induction steps generalizing n with
  | nil => simp [numberFrom] at h
  | cons t steps ih =>
      rcases List.mem_cons.mp h with rfl | h
      · exact ⟨t, List.mem_cons_self, n, rfl⟩
      · obtain ⟨u, hu, hs⟩ := ih h
        exact ⟨u, List.mem_cons_of_mem t hu, hs⟩

theorem exists_mem_numberFrom (n : Nat) {steps : List Step} {s : Step} (h : s ∈ steps) :
    ∃ m, s.withNumber m ∈ numberFrom n steps := by
  induction steps generalizing n with
  | nil => cases h
  | cons t steps ih =>
      rcases List.mem_cons.mp h with rfl | h
      · exact ⟨n, List.mem_cons_self⟩
      · obtain ⟨m, hm⟩ := ih (n + 1) h
        exact ⟨m, List.mem_cons_of_mem _ hm⟩

@[simp] theorem isWellOrdered_numberFrom (n : Nat) (steps : List Step) :
    isWellOrdered known (numberFrom n steps) = isWellOrdered known steps := by
  induction steps generalizing n known with
  | nil => rfl
  | cons s steps ih => cases s <;> simp [numberFrom, Step.withNumber, isWellOrdered, ih]

@[simp] theorem depthsFrom_numberFrom (n : Nat) (steps : List Step) :
    depthsFrom depth (numberFrom n steps) = depthsFrom depth steps := by
  induction steps generalizing n depth with
  | nil => rfl
  | cons s steps ih => cases s <;> simp [numberFrom, Step.withNumber, depthsFrom, ih]

theorem getLast?_numberFrom (n : Nat) (steps : List Step) :
    (numberFrom n steps).getLast?.bind Step.output? = steps.getLast?.bind Step.output? := by
  induction steps generalizing n with
  | nil => rfl
  | cons s steps ih =>
      cases steps with
      | nil => exact Step.output?_withNumber n s
      | cons t steps =>
          rw [numberFrom, List.getLast?_cons_cons, ← ih (n + 1), numberFrom, List.getLast?_cons_cons]

/-- A numbered list splits where the list without numbers does. -/
theorem numberFrom_eq_append {n : Nat} {steps before after : List Step} {s : Step}
    (h : numberFrom n steps = before ++ s :: after) :
    ∃ b t a m k, steps = b ++ t :: a ∧ s = t.withNumber m ∧ after = numberFrom k a := by
  induction before generalizing n steps with
  | nil =>
      cases steps with
      | nil => cases h
      | cons t a =>
          obtain ⟨rfl, rfl⟩ := List.cons.inj h
          exact ⟨[], t, a, n, n + 1, rfl, rfl, rfl⟩
  | cons u before ih =>
      cases steps with
      | nil => cases h
      | cons v steps =>
          obtain ⟨-, h⟩ := List.cons.inj h
          obtain ⟨b, t, a, m, k, rfl, hs, ha⟩ := ih h
          exact ⟨v :: b, t, a, m, k, rfl, hs, ha⟩

/-- The numbers count on from the first. -/
theorem map_number_numberFrom (n : Nat) (steps : List Step) :
    (numberFrom n steps).map Step.number = List.range' n steps.length := by
  induction steps generalizing n with
  | nil => rfl
  | cons s steps ih => simp [numberFrom, ih, List.range'_succ]

/-- A numbered list splits where the list without numbers does, with the same outputs before. -/
theorem exists_split_of_numberFrom {n : Nat} {steps before after : List Step} {s : Step}
    (h : numberFrom n steps = before ++ s :: after) :
    ∃ front t back m, steps = front ++ t :: back ∧ s = t.withNumber m ∧ outputs before = outputs front := by
  obtain ⟨front, t, back, m, k, rfl, rfl, rfl⟩ := numberFrom_eq_append h
  refine ⟨front, t, back, m, rfl, rfl, ?_⟩
  have hrest : outputs (t.withNumber m :: numberFrom k back) = outputs (t :: back) := by
    rw [outputs, List.filterMap_cons, Step.output?_withNumber, ← outputs, outputs_numberFrom]
    exact List.filterMap_cons.symm
  have houtputs := congrArg outputs h
  rw [outputs_numberFrom, outputs_append, outputs_append, hrest] at houtputs
  exact (List.append_cancel_right houtputs).symm

/-- Numbering the steps keeps what they derive. -/
theorem Derives.ofSteps {formulas : List Formula} {target : QuantityId} {cost : Nat} {steps : List Step}
    (h : Derives formulas known target cost steps) :
    Derives formulas known target cost (ofSteps steps) where
  applies s hs := by
    obtain ⟨t, ht, m, rfl⟩ := mem_numberFrom hs
    exact (h.applies t ht).withNumber m
  wellOrdered := (isWellOrdered_numberFrom 1 steps).trans h.wellOrdered
  nodup := by
    rw [Derivation.ofSteps, outputs_numberFrom]
    exact h.nodup
  unknown q hq := h.unknown q (by rwa [Derivation.ofSteps, outputs_numberFrom] at hq)
  used before s after hd ha := by
    obtain ⟨b, t, a, m, k, rfl, rfl, rfl⟩ := numberFrom_eq_append hd
    have ha' : a ≠ [] := fun he ↦ ha (by rw [he]; rfl)
    obtain ⟨q, hq, u, hu, hqu⟩ := h.used b t a rfl ha'
    obtain ⟨i, hi⟩ := exists_mem_numberFrom k hu
    exact ⟨q, by simpa using hq, u.withNumber i, hi, by simpa using hqu⟩
  last := (getLast?_numberFrom 1 steps).trans h.last
  depth := by
    rw [Derivation.ofSteps, depthsFrom_numberFrom]
    exact h.depth

/-! ## One step more -/

/-- A derivation stays well ordered if the inputs of one more step are at hand. -/
theorem isWellOrdered_concat {d : Derivation} {s : Step} (hd : d.isWellOrdered known = true)
    (hs : ∀ p ∈ s.inputs, p ∈ known ∨ p ∈ d.outputs) : (d ++ [s]).isWellOrdered known = true := by
  induction d generalizing known with
  | nil =>
      cases s with
      | calculation => rfl
      | find _ _ _ inputs _ => simpa [isWellOrdered, Step.inputs] using hs
  | cons t d ih =>
      cases t with
      | calculation => exact ih hd hs
      | find _ _ _ inputs output =>
          simp only [List.cons_append, isWellOrdered, Bool.and_eq_true] at hd ⊢
          refine ⟨hd.1, ih hd.2 fun p hp ↦ ?_⟩
          have := hs p hp
          simp only [outputs, List.filterMap_cons, Step.output?, List.mem_cons] at this ⊢
          tauto

/-- In a well ordered derivation the inputs of each step are known or found before. -/
theorem available_of_isWellOrdered {before after : Derivation} {s : Step}
    (h : isWellOrdered known (before ++ s :: after) = true) {p : QuantityId} (hp : p ∈ s.inputs) :
    p ∈ known ∨ p ∈ outputs before := by
  induction before generalizing known with
  | nil =>
      cases s with
      | calculation => cases hp
      | find _ _ _ inputs _ =>
          rw [List.nil_append, isWellOrdered, Bool.and_eq_true, List.all_eq_true] at h
          exact .inl (List.contains_iff_mem.mp (h.1 p hp))
  | cons t before ih =>
      cases t with
      | calculation => exact ih h
      | find _ _ _ inputs output =>
          rw [List.cons_append, isWellOrdered, Bool.and_eq_true] at h
          have hrest := ih h.2
          simp only [outputs, List.filterMap_cons, Step.output?, List.mem_cons] at hrest ⊢
          tauto

theorem depthsFrom_concat (d : Derivation) (number : Nat) (text : String) (f : FormulaId)
    (inputs : List QuantityId) (output : QuantityId) :
    depthsFrom depth (d ++ [.find number text f inputs output]) = fun q ↦
      if q = output then outputDepth? (depthsFrom depth d) inputs else depthsFrom depth d q := by
  induction d generalizing depth with
  | nil => rfl
  | cons t d ih => cases t <;> exact ih

end Derivation

end FormulaNet

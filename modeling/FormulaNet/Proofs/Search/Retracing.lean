import FormulaNet.Proofs.Search.Founded
import Mathlib.Computability.StateTransition

/-!
# Retracing a derivation with a stack

The walk over a table of origins can do without recursion.  A quantity that comes up on a stack of visits for
the first time is put back below its inputs, and it is found when it comes up again.  It may be on the stack
many times, once for every quantity that it goes into, and a round may leave more on the stack than it took
from it; so the height of the stack does not show that the rounds come to an end, and from a target on a cycle
they do not.

`Clears` counts the rounds against what they find: visits are dealt with in no more rounds than there are
visits, and steps found meanwhile, and inputs of these steps.  It follows the recursion of `order`, which finds
the same quantities in the same order.  So on a table without a cycle the walk ends, with the derivation that
`reconstruct` gives, and `Retraces` says what that derivation is.

`Tour.Sound` holds on any table.  Where the walk ends, the target is listed with inputs first, which leaves no
room for a cycle.
-/

namespace FormulaNet

namespace Derivation

/-- How many steps there are, and inputs of steps. -/
def size (d : Derivation) : Nat := d.length + (d.flatMap Step.inputs).length

@[simp] theorem size_append (d e : Derivation) : size (d ++ e) = d.size + e.size := by
  simp only [size, List.length_append, List.flatMap_append]
  omega

theorem flatMap_inputs_numberFrom (n : Nat) (steps : List Step) :
    (numberFrom n steps).flatMap Step.inputs = steps.flatMap Step.inputs := by
  induction steps generalizing n with
  | nil => rfl
  | cons s steps ih => simp [numberFrom, ih]

@[simp] theorem size_numberFrom (n : Nat) (steps : List Step) : size (numberFrom n steps) = size steps := by
  rw [size, length_numberFrom, flatMap_inputs_numberFrom, size]

end Derivation

namespace Search

/-! ## The walk with a stack -/

/-- A quantity on the stack.  With `ready` its inputs have been put above it. -/
structure Visit where
  quantity : QuantityId
  ready : Bool
  deriving DecidableEq, Repr

/-- How far the walk has got. -/
structure Tour where
  steps : List Step
  /-- The outputs of the steps. -/
  found : List QuantityId
  stack : List Visit

/-- The inputs that have an origin and have not been found. -/
def missing (origins : Origins) (found inputs : List QuantityId) : List QuantityId :=
  inputs.filter fun p ↦ p ∈ origins ∧ p ∉ found

namespace Tour

def start (target : QuantityId) : Tour := ⟨[], [], [⟨target, false⟩]⟩

/-- Puts quantities on the stack, the first one on top. -/
def enter (ids : List QuantityId) (stack : List Visit) : List Visit := ids.map (⟨·, false⟩) ++ stack

/-- Deals with a visit that has been taken from the stack. -/
def visit (origins : Origins) (v : Visit) (t : Tour) : Tour :=
  match origins[v.quantity]? with
  | none => t
  | some o =>
    if v.quantity ∈ t.found then t
    else if v.ready then
      { t with
        steps := t.steps ++ [.ofFormula o.formula o.inputs v.quantity]
        found := t.found ++ [v.quantity] }
    else { t with stack := enter (missing origins t.found o.inputs) (⟨v.quantity, true⟩ :: t.stack) }

/-- One round, the visit on top of the stack; there is none with an empty stack. -/
def next? (origins : Origins) (t : Tour) : Option Tour :=
  match t.stack with
  | [] => none
  | v :: rest => some ({ t with stack := rest }.visit origins v)

/-- One round if there is one. -/
def next (origins : Origins) (t : Tour) : Tour := (t.next? origins).getD t

end Tour

/-- The derivation that the walk from a target ends with.  It is defined if the walk ends. -/
def retrace (origins : Origins) (target : QuantityId) : Part Derivation :=
  (StateTransition.eval (Tour.next? origins) (.start target)).map fun t ↦ .ofSteps t.steps

variable {origins : Origins} {rank : QuantityId → Nat} {found done done' done'' roots : List QuantityId}
variable {q target : QuantityId} {o : Origin} {n : Nat} {rest : List Visit}

namespace Tour

/-- There is nothing to do for a quantity without an origin, nor for one that has been found. -/
theorem visit_of_passed {t : Tour} (h : q ∈ origins → q ∈ t.found) (ready : Bool) :
    t.visit origins ⟨q, ready⟩ = t := by
  unfold visit
  split
  · rfl
  · next o ho => exact if_pos (h (Table.mem_of_eq_some ho))

/-- A quantity is put back below the inputs that are missing. -/
theorem visit_enter {t : Tour} (ho : origins[q]? = some o) (hq : q ∉ t.found) :
    t.visit origins ⟨q, false⟩ =
      { t with stack := enter (missing origins t.found o.inputs) (⟨q, true⟩ :: t.stack) } := by
  simp [visit, ho, hq]

/-- A quantity that comes up again is found. -/
theorem visit_ready {t : Tour} (ho : origins[q]? = some o) (hq : q ∉ t.found) :
    t.visit origins ⟨q, true⟩ =
      { t with steps := t.steps ++ [.ofFormula o.formula o.inputs q], found := t.found ++ [q] } := by
  simp [visit, ho, hq]

/-- The tour that has found these quantities by their origins. -/
def having (origins : Origins) (done : List QuantityId) (stack : List Visit) : Tour :=
  ⟨stepsOf origins done, done, stack⟩

theorem visit_having (ho : origins[q]? = some o) (hq : q ∉ done) :
    (having origins done rest).visit origins ⟨q, true⟩ = having origins (done ++ [q]) rest := by
  rw [visit_ready ho hq, having, having, stepsOf_concat ho]

end Tour

/-! ## Rounds -/

/-- Visits of `roots` are dealt with, whatever they are on top of, and lead from the quantities in `done` to
those in `done'`.  There are no more rounds than roots, and what has been found pays for the others. -/
def Clears (origins : Origins) (roots done done' : List QuantityId) : Prop :=
  ∀ rest, ∃ n,
    (Tour.next origins)^[n] (.having origins done (Tour.enter roots rest)) = .having origins done' rest ∧
      n + Derivation.size (stepsOf origins done) ≤ roots.length + Derivation.size (stepsOf origins done')

namespace Clears

theorem nil : Clears origins [] done done := fun _ ↦ ⟨0, rfl, Nat.le_refl _⟩

/-- The first root is dealt with before the others come up. -/
theorem cons (hq : Clears origins [q] done done') (hroots : Clears origins roots done' done'') :
    Clears origins (q :: roots) done done'' := by
  intro rest
  obtain ⟨m, hm, hmle⟩ := hq (Tour.enter roots rest)
  obtain ⟨n, hn, hnle⟩ := hroots rest
  refine ⟨n + m, ?_, ?_⟩
  · rw [Function.iterate_add_apply, ← hn, ← hm]
    rfl
  · simp only [List.length_cons, List.length_nil] at hmle ⊢
    omega

/-- One round passes a quantity without an origin, and one that has been found. -/
theorem pass (h : q ∈ origins → q ∈ done) : Clears origins [q] done done :=
  fun rest ↦ ⟨1, Tour.visit_of_passed (t := .having origins done rest) h false, Nat.le_refl _⟩

/-- A quantity is found once its missing inputs have been dealt with, unless they lead back to it. -/
theorem concat (ho : origins[q]? = some o) (hq : q ∉ done)
    (hinputs : Clears origins (missing origins done o.inputs) done done') (hq' : q ∉ done') :
    Clears origins [q] done (done' ++ [q]) := by
  intro rest
  obtain ⟨n, hn, hle⟩ := hinputs (⟨q, true⟩ :: rest)
  refine ⟨1 + (n + 1), ?_, ?_⟩
  · calc
      (Tour.next origins)^[1 + (n + 1)] (.having origins done (Tour.enter [q] rest))
          = (Tour.next origins)^[1] ((Tour.next origins)^[n]
              ((Tour.having origins done rest).visit origins ⟨q, false⟩)) := by
            rw [Function.iterate_add_apply, Function.iterate_succ_apply]
            rfl
      _ = (Tour.having origins done' rest).visit origins ⟨q, true⟩ := by
            rw [Tour.visit_enter ho hq]
            exact congrArg (Tour.next origins) hn
      _ = .having origins (done' ++ [q]) rest := Tour.visit_having ho hq'
  · have hmissing : (missing origins done o.inputs).length ≤ o.inputs.length := List.length_filter_le _ _
    have hstep : Derivation.size [.ofFormula o.formula o.inputs q] = 1 + o.inputs.length := by
      simp [Derivation.size, Step.ofFormula, Step.inputs]
    rw [stepsOf_concat ho, Derivation.size_append, hstep, List.length_singleton]
    omega

end Clears

/-- The roots that were missing when they were put on the stack are dealt with one after the other, and `order`
passes the others. -/
theorem clears_foldl
    (hwalk : ∀ q ∈ roots, ∀ done, InputsFirst origins done → Walked origins [q] done (order origins n q done))
    (h : ∀ q ∈ roots, ∀ done, InputsFirst origins done → Clears origins [q] done (order origins n q done))
    (hd : InputsFirst origins done) (hfound : ∀ p ∈ found, p ∈ done) :
    Clears origins (missing origins found roots) done
      (roots.foldl (fun done q ↦ order origins n q done) done) := by
  induction roots generalizing done with
  | nil => exact .nil
  | cons q roots ih =>
      have hq := hwalk q List.mem_cons_self done hd
      have hrest := ih (fun r hr ↦ hwalk r (List.mem_cons_of_mem q hr))
        (fun r hr ↦ h r (List.mem_cons_of_mem q hr)) hq.inputsFirst fun p hp ↦ hq.subset p (hfound p hp)
      rw [List.foldl_cons, missing]
      by_cases hmissing : q ∈ origins ∧ q ∉ found
      · rw [List.filter_cons_of_pos (by simpa using hmissing)]
        exact .cons (h q List.mem_cons_self done hd) hrest
      · have hpassed : q ∈ origins → q ∈ done := fun hqo ↦
          hfound q (Classical.not_not.mp fun hqf ↦ hmissing ⟨hqo, hqf⟩)
        rw [List.filter_cons_of_neg (by simpa using hmissing)]
        rw [order_of_passed hpassed] at hrest ⊢
        exact hrest

/-- The walk with a stack finds what `order` lists. -/
theorem clears_order (hr : Ranked origins rank) (hn : height origins rank q ≤ n)
    (hd : InputsFirst origins done) : Clears origins [q] done (order origins n q done) := by
  -- the bound of `order` falls with the height from a quantity to its inputs
  induction n generalizing q done with
  | zero =>
      refine .pass fun hq ↦ ?_
      have := height_pos rank hq
      omega
  | succ n ih =>
      by_cases hpassed : q ∈ origins → q ∈ done
      · rw [order_of_passed hpassed]
        exact .pass hpassed
      · obtain ⟨hqo, hq⟩ := Classical.not_imp.mp hpassed
        obtain ⟨o, ho⟩ := Table.exists_of_mem hqo
        have hfirst := (walked_order hr hn hd).inputsFirst
        simp only [order, ho, hq, ↓reduceIte] at hfirst ⊢
        have hinputs : ∀ p ∈ o.inputs, height origins rank p ≤ n := by
          intro p hp
          have := height_lt hqo (hr q p ⟨o, ho, hp⟩)
          omega
        refine .concat ho hq (clears_foldl (fun p hp done hd ↦ walked_order hr (hinputs p hp) hd)
          (fun p hp done hd ↦ ih (hinputs p hp) hd) hd fun p hp ↦ hp) ?_
        -- the list with `q` has no repetitions, so `q` was not among what its inputs need
        have hnodup := hfirst.nodup
        simp only [List.nodup_append, List.mem_singleton] at hnodup
        exact fun hmem ↦ hnodup.2.2 q hmem q rfl rfl

/-! ## The end of the walk -/

namespace Tour

theorem next?_eq_none_iff {t : Tour} : t.next? origins = none ↔ t.stack = [] := by
  unfold next?
  split <;> simp_all

/-- However many rounds are asked for, the walk gets there. -/
theorem reaches_iterate (origins : Origins) (n : Nat) (t : Tour) :
    StateTransition.Reaches (next? origins) t ((next origins)^[n] t) := by
  induction n generalizing t with
  | zero => exact .refl
  | succ n ih =>
      rw [Function.iterate_succ_apply]
      cases hnext : t.next? origins with
      | none =>
          rw [show t.next origins = t by rw [next, hnext, Option.getD_none]]
          exact ih t
      | some u =>
          rw [show t.next origins = u by rw [next, hnext, Option.getD_some]]
          exact .head hnext (ih u)

end Tour

theorem reconstruct_eq (origins : Origins) (target : QuantityId) :
    reconstruct origins target = .ofSteps (stepsOf origins (needed origins target)) := rfl

/-- The rounds that find what the target needs are no more than the steps and their inputs, and one. -/
theorem exists_iterate_of_ranked (hr : Ranked origins rank) (target : QuantityId) :
    ∃ n ≤ 1 + (reconstruct origins target).size,
      (Tour.next origins)^[n] (.start target) = .having origins (needed origins target) [] := by
  obtain ⟨n, hn, hle⟩ := clears_order (n := origins.size) hr height_le_size .nil (q := target) []
  refine ⟨n, ?_, hn⟩
  rw [reconstruct_eq, Derivation.ofSteps, Derivation.size_numberFrom]
  exact hle

/-- The walk with a stack ends with the derivation that the recursive walk gives. -/
theorem retrace_of_ranked (hr : Ranked origins rank) (target : QuantityId) :
    retrace origins target = .some (reconstruct origins target) := by
  obtain ⟨n, -, hn⟩ := exists_iterate_of_ranked hr target
  have hreaches := Tour.reaches_iterate origins n (.start target)
  rw [hn] at hreaches
  have hend : Tour.having origins (needed origins target) [] ∈
      StateTransition.eval (Tour.next? origins) (.start target) :=
    StateTransition.mem_eval.mpr ⟨hreaches, rfl⟩
  exact Part.eq_some_iff.mpr (Part.mem_map _ hend)

/-- In every state that the search reaches the walk with a stack ends with the derivation that is answered. -/
theorem Founded.retrace_eq {formulas : List Formula} {known : List QuantityId} {s : State}
    (hs : Founded formulas known s) (target : QuantityId) :
    retrace s.origins target = .some (reconstruct s.origins target) :=
  retrace_of_ranked hs.ranked target

/-! ## Tables with a cycle -/

/-- A quantity that comes up again to be found has its inputs ahead of it, as far as they have origins: found,
or higher up on the stack. -/
def Held (origins : Origins) : List QuantityId → List Visit → Prop
  | _, [] => True
  | ahead, v :: rest =>
    (v.ready = true → ∀ p, Uses origins v.quantity p → p ∈ origins → p ∈ ahead) ∧
      Held origins (v.quantity :: ahead) rest

theorem Held.mono {ahead ahead' : List QuantityId} {stack : List Visit} (h : Held origins ahead stack)
    (hsub : ∀ p ∈ origins, p ∈ ahead → p ∈ ahead') : Held origins ahead' stack := by
  induction stack generalizing ahead ahead' with
  | nil => trivial
  | cons v rest ih =>
      refine ⟨fun hready p hu hp ↦ hsub p hp (h.1 hready p hu hp), ih h.2 fun p hp hmem ↦ ?_⟩
      exact List.mem_cons.mpr ((List.mem_cons.mp hmem).imp_right (hsub p hp))

/-- What is put on the stack is ahead of all below. -/
theorem Held.enter {ids ahead : List QuantityId} (h : Held origins (ids ++ ahead) rest) :
    Held origins ahead (Tour.enter ids rest) := by
  induction ids generalizing ahead with
  | nil => exact h
  | cons i ids ih =>
      refine ⟨fun hready ↦ absurd hready Bool.false_ne_true, ih (h.mono fun p _ hp ↦ ?_)⟩
      simp only [List.cons_append, List.mem_cons, List.mem_append] at hp ⊢
      tauto

/-- What every round keeps, on any table: inputs are found first or ahead on the stack, and the target is not
lost. -/
structure Tour.Sound (origins : Origins) (target : QuantityId) (t : Tour) : Prop where
  found : InputsFirst origins t.found
  held : Held origins t.found t.stack
  target : target ∈ t.found ∨ target ∈ t.stack.map Visit.quantity

namespace Tour.Sound

theorem start (origins : Origins) (target : QuantityId) : (Tour.start target).Sound origins target where
  found := .nil
  held := ⟨fun hready ↦ absurd hready Bool.false_ne_true, trivial⟩
  target := .inr (List.mem_singleton_self _)

theorem visit {t : Tour} {v : Visit} (ht : target ∈ origins)
    (hs : { t with stack := v :: t.stack }.Sound origins target) :
    (t.visit origins v).Sound origins target := by
  obtain ⟨hfound, ⟨hinputs, hrest⟩, htarget⟩ := hs
  obtain ⟨q, ready⟩ := v
  simp only [List.map_cons, List.mem_cons] at htarget
  by_cases hpassed : q ∈ origins → q ∈ t.found
  · rw [Tour.visit_of_passed hpassed]
    refine ⟨hfound, hrest.mono fun p hp hmem ↦ ?_, ?_⟩
    · rcases List.mem_cons.mp hmem with rfl | hmem
      · exact hpassed hp
      · exact hmem
    · rcases htarget with htarget | rfl | htarget
      · exact .inl htarget
      · exact .inl (hpassed ht)
      · exact .inr htarget
  · obtain ⟨hqo, hq⟩ := Classical.not_imp.mp hpassed
    obtain ⟨o, ho⟩ := Table.exists_of_mem hqo
    cases ready with
    | false =>
        rw [Tour.visit_enter ho hq]
        refine ⟨hfound, Held.enter ⟨fun _ p hu hp ↦ ?_, hrest.mono fun p _ hmem ↦ ?_⟩, ?_⟩
        · by_cases hpf : p ∈ t.found
          · exact List.mem_append_right _ hpf
          · exact List.mem_append_left _ (List.mem_filter.mpr ⟨hu.mem_inputs ho, by simp [hp, hpf]⟩)
        · simp only [List.mem_cons, List.mem_append] at hmem ⊢
          tauto
        · simp only [Tour.enter, List.map_append, List.map_cons, List.mem_append, List.mem_cons]
          tauto
    | true =>
        -- nothing was above the quantity, so its inputs have been found
        rw [Tour.visit_ready ho hq]
        refine ⟨.concat hfound hq ho fun p hp ↦ hinputs rfl p ⟨o, ho, hp⟩, hrest.mono fun p _ hmem ↦ ?_, ?_⟩
        · simp only [List.mem_cons, List.mem_append, List.not_mem_nil] at hmem ⊢
          tauto
        · simp only [List.mem_append, List.mem_singleton]
          tauto

/-- All tours that the walk reaches are sound. -/
theorem reached {t u : Tour} (ht : target ∈ origins) (hs : t.Sound origins target)
    (hreach : StateTransition.Reaches (Tour.next? origins) t u) : u.Sound origins target := by
  induction hreach with
  | refl => exact hs
  | @tail u w _ hnext ih =>
      obtain ⟨steps, found, stack⟩ := u
      cases stack with
      | nil => cases hnext
      | cons v rest =>
          obtain rfl := Option.some.inj hnext
          exact ih.visit ht

end Tour.Sound

/-- Where the walk ends, the target is listed with inputs first. -/
theorem exists_inputsFirst_of_retrace (ht : target ∈ origins) (hends : (retrace origins target).Dom) :
    ∃ done, InputsFirst origins done ∧ target ∈ done := by
  obtain ⟨t, hmem, -⟩ := (Part.mem_map_iff _).mp (Part.get_mem hends)
  obtain ⟨hreach, hend⟩ := StateTransition.mem_eval.mp hmem
  have hs := (Tour.Sound.start origins target).reached ht hreach
  have hstack : t.stack = [] := Tour.next?_eq_none_iff.mp hend
  exact ⟨t.found, hs.found, hs.target.resolve_right (by simp [hstack])⟩

/-- **The walk ends from every target just where the table has no cycle.** -/
theorem acyclic_iff_forall_retrace : Acyclic origins ↔ ∀ target ∈ origins, (retrace origins target).Dom := by
  constructor
  · intro hacyclic target _
    obtain ⟨rank, hr⟩ := hacyclic.exists_ranked
    rw [retrace_of_ranked hr target]
    trivial
  · intro hends q hcycle
    have hq := mem_of_transGen hcycle
    obtain ⟨done, hdone, hmem⟩ := exists_inputsFirst_of_retrace hq (hends q hq)
    exact hdone.not_transGen hmem hcycle

/-! ## What is retraced -/

/-- The derivation finds the target by the entries of the table, from whatever has no entry. -/
structure Retraces (origins : Origins) (target : QuantityId) (d : Derivation) : Prop where
  /-- Each step finds its output as the table says. -/
  entries : ∀ s ∈ d, ∃ q o number, origins[q]? = some o ∧
    s = (Step.ofFormula o.formula o.inputs q).withNumber number
  /-- The target is found, and what it needs, and nothing else. -/
  mem_outputs : ∀ p, p ∈ d.outputs ↔ p ∈ origins ∧ Needs origins target p
  nodup : d.outputs.Nodup
  /-- Inputs that have an entry are found before. -/
  inputs : ∀ before s after, d = before ++ s :: after → ∀ p ∈ s.inputs, p ∈ origins →
    p ∈ Derivation.outputs before
  numbers : d.map Step.number = List.range' 1 d.length
  last : d.getLast?.bind Step.output? = some target

/-- The steps that find a list with inputs first find it, with or without numbers. -/
theorem InputsFirst.outputs_stepsOf (h : InputsFirst origins done) :
    Derivation.outputs (stepsOf origins done) = done :=
  Search.outputs_stepsOf fun _ hq ↦ h.mem_origins hq

theorem InputsFirst.outputs_ofSteps (h : InputsFirst origins done) :
    Derivation.outputs (.ofSteps (stepsOf origins done)) = done :=
  (Derivation.outputs_numberFrom 1 _).trans h.outputs_stepsOf

/-- The inputs of a step are outputs of steps before it, as far as they have origins. -/
theorem InputsFirst.mem_outputs (h : InputsFirst origins done) {before after : List Step} {s : Step}
    (hsplit : Derivation.ofSteps (stepsOf origins done) = before ++ s :: after) {p : QuantityId}
    (hp : p ∈ s.inputs) (hpo : p ∈ origins) : p ∈ Derivation.outputs before := by
  obtain ⟨front, t, back, number, hsteps, rfl, hbefore⟩ := Derivation.exists_split_of_numberFrom hsplit
  obtain ⟨q, -, o, ho, rfl⟩ := mem_stepsOf.mp (hsteps ▸ List.mem_append_right front List.mem_cons_self)
  have hlist : done = Derivation.outputs front ++ q :: Derivation.outputs back :=
    calc
      done = Derivation.outputs (stepsOf origins done) := h.outputs_stepsOf.symm
      _ = Derivation.outputs (front ++ .ofFormula o.formula o.inputs q :: back) := by rw [hsteps]
      _ = Derivation.outputs front ++ q :: Derivation.outputs back := Derivation.outputs_append front _
  rw [hbefore]
  exact h.mem_before hlist ⟨o, ho, hp⟩ hpo

theorem mem_needed_iff (hr : Ranked origins rank) (ht : target ∈ origins) {p : QuantityId} :
    p ∈ needed origins target ↔ p ∈ origins ∧ Needs origins target p := by
  have hwalked := walked_needed hr target
  constructor
  · exact fun hp ↦ ⟨hwalked.inputsFirst.mem_origins hp, needs_of_mem_needed hr hp⟩
  · rintro ⟨hp, hneeds⟩
    exact hwalked.inputsFirst.mem_of_needs (hwalked.listed target List.mem_cons_self ht) hneeds hp

theorem retraces_of_ranked (hr : Ranked origins rank) (ht : target ∈ origins) :
    Retraces origins target (reconstruct origins target) := by
  have hfirst := (walked_needed hr target).inputsFirst
  rw [reconstruct_eq]
  refine ⟨?_, ?_, ?_, fun before s after hsplit p ↦ hfirst.mem_outputs hsplit, ?_, ?_⟩
  · intro s hs
    obtain ⟨t, ht, number, rfl⟩ := Derivation.mem_numberFrom hs
    obtain ⟨q, -, o, ho, rfl⟩ := mem_stepsOf.mp ht
    exact ⟨q, o, number, ho, rfl⟩
  · intro p
    rw [hfirst.outputs_ofSteps]
    exact mem_needed_iff hr ht
  · rw [hfirst.outputs_ofSteps]
    exact hfirst.nodup
  · rw [Derivation.ofSteps, Derivation.map_number_numberFrom, Derivation.length_numberFrom]
  · obtain ⟨front, hfront⟩ := needed_eq_concat ht
    obtain ⟨o, ho⟩ := Table.exists_of_mem ht
    have hlast : (stepsOf origins (needed origins target)).getLast?.bind Step.output? = some target := by
      rw [hfront, stepsOf_concat ho, List.getLast?_concat]
      rfl
    exact (Derivation.getLast?_numberFrom 1 _).trans hlast

/-- How the power is found from mass, time and distance: by way of velocity, acceleration and force, where the
velocity goes into the acceleration and the power both.  The energy is found from the power. -/
def powerOrigins : Origins :=
  let entries : List (QuantityId × Origin) :=
    [(7, ⟨4, [6, 4]⟩), (6, ⟨3, [1, 5]⟩), (5, ⟨2, [4, 2]⟩), (4, ⟨1, [3, 2]⟩), (8, ⟨5, [7, 2]⟩)]
  .ofList entries

theorem acyclic_powerOrigins : Acyclic powerOrigins := by
  have hinputs : ∀ entry ∈ powerOrigins.toList, ∀ p ∈ entry.2.inputs, p < entry.1 := by decide
  have hr : Ranked powerOrigins id := by
    rintro q p ⟨o, ho, hp⟩
    exact hinputs (q, o) (Std.TreeMap.mem_toList_iff_getElem?_eq_some.mpr ho) p hp
  exact hr.acyclic

/-- **On a table without a cycle the walk ends with the derivation of the target**, which finds the target and
the quantities it needs that have entries, each once and after its inputs, with the target last.  It takes no
more rounds than one and as many as there are steps and inputs of steps. -/
theorem retraces_of_acyclic {origins : Origins} {target : QuantityId} (hacyclic : Acyclic origins)
    (ht : target ∈ origins) :
    retrace origins target = .some (reconstruct origins target) ∧
      (∃ n ≤ 1 + (reconstruct origins target).size, ((Tour.next origins)^[n] (.start target)).stack = []) ∧
      Retraces origins target (reconstruct origins target) := by
  obtain ⟨rank, hr⟩ := hacyclic.exists_ranked
  obtain ⟨n, hle, hn⟩ := exists_iterate_of_ranked hr target
  exact ⟨retrace_of_ranked hr target, ⟨n, hle, by rw [hn]; rfl⟩, retraces_of_ranked hr ht⟩

/-- The velocity comes up twice on the stack and is found once, before the acceleration. -/
theorem retraces_power :
    Acyclic powerOrigins ∧ 7 ∈ powerOrigins ∧
      retrace powerOrigins 7 = .some (reconstruct powerOrigins 7) ∧
      (∃ n ≤ 13, ((Tour.next powerOrigins)^[n] (.start 7)).stack = []) ∧
      Retraces powerOrigins 7 (reconstruct powerOrigins 7) ∧
      reconstruct powerOrigins 7 =
        [.find 1 "Use formula 1 to find quantity 4" 1 [3, 2] 4,
          .find 2 "Use formula 2 to find quantity 5" 2 [4, 2] 5,
          .find 3 "Use formula 3 to find quantity 6" 3 [1, 5] 6,
          .find 4 "Use formula 4 to find quantity 7" 4 [6, 4] 7] := by
  have hpower : 7 ∈ powerOrigins := by decide
  obtain ⟨hretrace, hends, hretraces⟩ := retraces_of_acyclic acyclic_powerOrigins hpower
  exact ⟨acyclic_powerOrigins, hpower, hretrace, hends, hretraces, rfl⟩

end Search

end FormulaNet

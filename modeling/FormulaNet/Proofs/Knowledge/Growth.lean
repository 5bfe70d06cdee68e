import FormulaNet.Knowledge.Catalogue
import FormulaNet.Proofs.Except
import FormulaNet.Proofs.Knowledge.Tables

/-!
# What a catalogue keeps as it grows

A catalogue starts empty and changes by writing only.  `Grown` are the catalogues that some history of
writes leads to, refused additions included; `Coherent` is what all of them have in common: every entry
stands under its own id, which is not the last one, names and ids of quantities determine each other, formulas
refer to what is there, and the ids noted under a quantity are those of the formulas that relate it.
-/

namespace FormulaNet

/-- Dropping the repetitions leaves none. -/
theorem Ids.nodup_eraseDups (ids : List Nat) : ids.eraseDups.Nodup := by
  match ids with
  | [] => simp
  | id :: rest =>
    rw [List.eraseDups_cons, List.nodup_cons]
    refine ⟨fun h ↦ ?_, nodup_eraseDups _⟩
    have := (List.mem_filter.mp (List.mem_eraseDups.mp h)).2
    simp at this
termination_by ids.length
decreasing_by exact Nat.lt_succ_of_le (List.length_filter_le _ _)

/-- A list without repetitions stays as it is. -/
theorem Ids.eraseDups_eq_self {ids : List Nat} (h : ids.Nodup) : ids.eraseDups = ids := by
  induction ids with
  | nil => rfl
  | cons id rest ih =>
      obtain ⟨hid, hrest⟩ := List.nodup_cons.mp h
      have hkeep : rest.filter (fun a ↦ !a == id) = rest := by
        refine List.filter_eq_self.mpr fun a ha ↦ ?_
        have : a ≠ id := fun heq ↦ hid (heq ▸ ha)
        simpa using this
      rw [List.eraseDups_cons, hkeep, ih hrest]

namespace Catalogue

variable {c c' : Catalogue}

/-- The catalogues that writing leads to.  A refused insertion changes nothing, a refused addition uses up
an id. -/
inductive Grown : Catalogue → Prop
  | empty : Grown empty
  | insertQuantity {c c' : Catalogue} {q : Quantity} :
      Grown c → c.insertQuantity q = .ok c' → Grown c'
  | insertConstant {c c' : Catalogue} {k : Constant Float} :
      Grown c → c.insertConstant k = .ok c' → Grown c'
  | insertFormula {c c' : Catalogue} {f : Formula} :
      Grown c → c.insertFormula f = .ok c' → Grown c'
  | addQuantity {c : Catalogue} (name symbol unit : String) :
      Grown c → Grown (c.addQuantity name symbol unit).2
  | addConstant {c : Catalogue} (name symbol : String) (value : Float) (unit : String) :
      Grown c → Grown (c.addConstant name symbol value unit).2
  | addFormula {c : Catalogue} (name expression : String) (quantities : List QuantityId)
      (constants : List ConstantId) :
      Grown c → Grown (c.addFormula name expression quantities constants).2

/-- Reading a snapshot is writing all of it. -/
theorem grown_ofSnapshot {s : Snapshot} (h : ofSnapshot s = .ok c) : c.Grown := by
  unfold ofSnapshot at h
  obtain ⟨c₁, h₁, h⟩ := bind_eq_ok_iff.mp h
  obtain ⟨c₂, h₂, h⟩ := bind_eq_ok_iff.mp h
  have hc₁ : c₁.Grown :=
    foldlM_induction (P := fun _ c ↦ c.Grown) (fun _ _ _ _ hc ha ↦ .insertQuantity hc ha) .empty h₁
  have hc₂ : c₂.Grown :=
    foldlM_induction (P := fun _ c ↦ c.Grown) (fun _ _ _ _ hc ha ↦ .insertConstant hc ha) hc₁ h₂
  exact foldlM_induction (P := fun _ c ↦ c.Grown) (fun _ _ _ _ hc ha ↦ .insertFormula hc ha) hc₂ h

/-- Force, mass, acceleration, time and velocity, with two laws between them. -/
def mechanics : Catalogue :=
  let c := (empty.addQuantity "force" "F" "N").2
  let c := (c.addQuantity "mass" "m" "kg").2
  let c := (c.addQuantity "acceleration" "a" "m/s^2").2
  let c := (c.addQuantity "time" "t" "s").2
  let c := (c.addQuantity "velocity" "v" "m/s").2
  let c := (c.addFormula "second law" "F = m * a" [1, 2, 3] []).2
  (c.addFormula "steady speeding up" "a = v / t" [3, 5, 4] []).2

theorem grown_mechanics : mechanics.Grown :=
  .addFormula _ _ _ _ (.addFormula _ _ _ _ (.addQuantity _ _ _ (.addQuantity _ _ _ (.addQuantity _ _ _
    (.addQuantity _ _ _ (.addQuantity _ _ _ .empty))))))

/-- A formula that a catalogue may keep: it relates some quantity, repeats no id, and refers to what is
there. -/
structure Keeps (c : Catalogue) (f : Formula) : Prop where
  nonempty : f.quantities ≠ []
  quantities_nodup : f.quantities.Nodup
  constants_nodup : f.constants.Nodup
  quantities_mem : ∀ q ∈ f.quantities, q ∈ c.quantities
  constants_mem : ∀ k ∈ f.constants, k ∈ c.constants

/-- The tables of a catalogue agree with each other. -/
structure Coherent (c : Catalogue) : Prop where
  quantity_id : ∀ {i : Nat} {q : Quantity}, c.quantities[i]? = some q → q.id = i
  constant_id : ∀ {i : Nat} {k : Constant Float}, c.constants[i]? = some k → k.id = i
  formula_id : ∀ {i : Nat} {f : Formula}, c.formulas[i]? = some f → f.id = i
  quantity_lt : ∀ i, i ∈ c.quantities → i < Ids.last
  constant_lt : ∀ i, i ∈ c.constants → i < Ids.last
  formula_lt : ∀ i, i ∈ c.formulas → i < Ids.last
  names_iff : ∀ {name : String} {i : QuantityId},
    c.names[name]? = some i ↔ ∃ q : Quantity, c.quantities[i]? = some q ∧ q.name = name
  keeps : ∀ {i : Nat} {f : Formula}, c.formulas[i]? = some f → c.Keeps f
  mem_members : ∀ {i : FormulaId} {q : QuantityId},
    i ∈ c.members.getD q [] ↔ ∃ f : Formula, c.formulas[i]? = some f ∧ q ∈ f.quantities
  members_sorted : ∀ q, (c.members.getD q []).Pairwise (· < ·)

/-- A larger catalogue keeps the formulas of a smaller one. -/
theorem Keeps.mono {f : Formula} (h : c.Keeps f) (hq : ∀ i, i ∈ c.quantities → i ∈ c'.quantities)
    (hk : ∀ i, i ∈ c.constants → i ∈ c'.constants) : c'.Keeps f where
  nonempty := h.nonempty
  quantities_nodup := h.quantities_nodup
  constants_nodup := h.constants_nodup
  quantities_mem q hm := hq q (h.quantities_mem q hm)
  constants_mem k hm := hk k (h.constants_mem k hm)

/-! ## What an insertion does -/

/-- Putting an entry in succeeds if there is an id after its own, and counting goes on past it. -/
theorem map_countOn_eq_ok_iff {next id : Nat} {put : Nat → Catalogue} :
    (countOn next id).map put = .ok c' ↔ id < Ids.last ∧ c' = put (max next (id + 1)) := by
  unfold countOn
  split <;> simp_all [Except.map, eq_comm]

theorem insertQuantity_eq_ok_iff {q : Quantity} :
    c.insertQuantity q = .ok c' ↔
      q.name ∉ c.names ∧ q.id ∉ c.quantities ∧ q.id < Ids.last ∧
        c' = { c with
          quantities := c.quantities.insert q.id q
          names := c.names.insert q.name q.id
          members := c.members.insert q.id (c.members.getD q.id [])
          nextQuantity := max c.nextQuantity (q.id + 1) } := by
  unfold insertQuantity
  split
  · simp_all
  · split
    · simp_all
    · rw [map_countOn_eq_ok_iff]
      simp_all

theorem insertConstant_eq_ok_iff {k : Constant Float} :
    c.insertConstant k = .ok c' ↔
      k.id ∉ c.constants ∧ k.id < Ids.last ∧
        c' = { c with
          constants := c.constants.insert k.id k
          nextConstant := max c.nextConstant (k.id + 1) } := by
  unfold insertConstant
  split
  · simp_all
  · rw [map_countOn_eq_ok_iff]
    simp_all

theorem keeps_withoutRepeats_iff {f : Formula} :
    c.Keeps (withoutRepeats f) ↔
      (withoutRepeats f).arity ≠ 0 ∧
        (withoutRepeats f).quantities.find? (· ∉ c.quantities) = none ∧
        (withoutRepeats f).constants.find? (· ∉ c.constants) = none := by
  simp only [List.find?_eq_none, decide_eq_true_eq, Decidable.not_not]
  constructor
  · intro h
    exact ⟨by simpa [Formula.arity] using h.nonempty, h.quantities_mem, h.constants_mem⟩
  · rintro ⟨ha, hq, hk⟩
    exact ⟨by simpa [Formula.arity] using ha, Ids.nodup_eraseDups _, Ids.nodup_eraseDups _, hq, hk⟩

/-- What a formula has to refer to does not depend on how often it does. -/
theorem keeps_withoutRepeats_iff_mem {f : Formula} :
    c.Keeps (withoutRepeats f) ↔
      f.quantities ≠ [] ∧ (∀ i ∈ f.quantities, i ∈ c.quantities) ∧ ∀ i ∈ f.constants, i ∈ c.constants := by
  have hnil : (withoutRepeats f).quantities ≠ [] ↔ f.quantities ≠ [] := by
    cases h : f.quantities <;> simp [withoutRepeats, h, List.eraseDups_cons]
  constructor
  · intro h
    exact ⟨hnil.mp h.nonempty, fun i hi ↦ h.quantities_mem i (List.mem_eraseDups.mpr hi),
      fun i hi ↦ h.constants_mem i (List.mem_eraseDups.mpr hi)⟩
  · rintro ⟨hne, hq, hk⟩
    exact {
      nonempty := hnil.mpr hne
      quantities_nodup := Ids.nodup_eraseDups _
      constants_nodup := Ids.nodup_eraseDups _
      quantities_mem i hi := hq i (List.mem_eraseDups.mp hi)
      constants_mem i hi := hk i (List.mem_eraseDups.mp hi) }

theorem insertFormula_eq_ok_iff {f : Formula} :
    c.insertFormula f = .ok c' ↔
      c.Keeps (withoutRepeats f) ∧ f.id ∉ c.formulas ∧ f.id < Ids.last ∧
        c' = { c with
          formulas := c.formulas.insert f.id (withoutRepeats f)
          members := addMembers c.members (withoutRepeats f)
          nextFormula := max c.nextFormula (f.id + 1) } := by
  rw [keeps_withoutRepeats_iff]
  unfold insertFormula
  simp only
  split
  · simp_all
  · split
    · simp_all
    · simp_all
    · split
      · simp_all [withoutRepeats]
      · rw [map_countOn_eq_ok_iff]
        simp_all [withoutRepeats]

/-! ## The members of quantities -/

theorem mem_addMembers {members : Std.TreeMap QuantityId (List FormulaId)} {f : Formula} {i q : Nat} :
    i ∈ (addMembers members f).getD q [] ↔
      i ∈ members.getD q [] ∨ (i = f.id ∧ q ∈ f.quantities) := by
  unfold addMembers
  induction f.quantities generalizing members with
  | nil => simp
  | cons p qs ih =>
    rw [List.foldl_cons, ih]
    by_cases hp : p = q
    · subst hp
      simp only [Std.TreeMap.getD_insert_self, Ids.mem_insert, List.mem_cons, true_or, and_true]
      grind
    · simp [Std.TreeMap.getD_insert, hp, Ne.symm hp]

theorem addMembers_sorted {members : Std.TreeMap QuantityId (List FormulaId)} {f : Formula}
    (h : ∀ q, (members.getD q []).Pairwise (· < ·)) (q : QuantityId) :
    ((addMembers members f).getD q []).Pairwise (· < ·) := by
  unfold addMembers
  induction f.quantities generalizing members with
  | nil => exact h q
  | cons p qs ih =>
    rw [List.foldl_cons]
    refine ih fun r ↦ ?_
    by_cases hp : p = r
    · subst hp
      simpa using Ids.pairwise_insert (h p)
    · simpa [Std.TreeMap.getD_insert, hp] using h r

/-! ## Coherence -/

theorem coherent_empty : Coherent empty where
  quantity_id h := by simp [empty] at h
  constant_id h := by simp [empty] at h
  formula_id h := by simp [empty] at h
  quantity_lt _ h := absurd h Std.TreeMap.not_mem_emptyc
  constant_lt _ h := absurd h Std.TreeMap.not_mem_emptyc
  formula_lt _ h := absurd h Std.TreeMap.not_mem_emptyc
  names_iff := by simp [empty]
  keeps h := by simp [empty] at h
  mem_members := by simp [empty]
  members_sorted := by simp [empty]

/-- Coherence concerns the tables only, not the ids that come next. -/
theorem Coherent.withNext (h : c.Coherent) (q k f : Nat) :
    Coherent { c with nextQuantity := q, nextConstant := k, nextFormula := f } where
  quantity_id := h.quantity_id
  constant_id := h.constant_id
  formula_id := h.formula_id
  quantity_lt := h.quantity_lt
  constant_lt := h.constant_lt
  formula_lt := h.formula_lt
  names_iff := h.names_iff
  keeps hf := (h.keeps hf).mono (fun _ hi ↦ hi) (fun _ hi ↦ hi)
  mem_members := h.mem_members
  members_sorted := h.members_sorted

theorem Coherent.insertQuantity {q : Quantity} (h : c.Coherent) (hc : c.insertQuantity q = .ok c') :
    c'.Coherent := by
  obtain ⟨hname, hid, hlast, rfl⟩ := insertQuantity_eq_ok_iff.mp hc
  have hmembers : ∀ p, (c.members.insert q.id (c.members.getD q.id [])).getD p [] =
      c.members.getD p [] := by
    intro p
    by_cases hp : q.id = p
    · subst hp
      simp
    · simp [Std.TreeMap.getD_insert, hp]
  refine ⟨?_, h.constant_id, h.formula_id, ?_, h.constant_lt, h.formula_lt, ?_, ?_, ?_, ?_⟩
  · intro i p hp
    by_cases hq : q.id = i
    · subst hq
      simp_all
    · exact h.quantity_id (by simpa [Std.TreeMap.getElem?_insert, hq] using hp)
  · exact Table.forall_mem_insert hlast h.quantity_lt
  · intro name i
    have hnew : c.names[q.name]? = none := Std.TreeMap.getElem?_eq_none hname
    have hfree : ∀ p : Quantity, c.quantities[i]? = some p → p.name ≠ q.name := by
      intro p hp heq
      have := h.names_iff.mpr ⟨p, hp, heq⟩
      simp [hnew] at this
    have hold : c.quantities[q.id]? = none := Std.TreeMap.getElem?_eq_none hid
    have hiff := @h.names_iff name i
    by_cases hn : q.name = name <;> by_cases hq : q.id = i <;>
      simp_all [Std.TreeMap.getElem?_insert]
  · intro i f hf
    refine (h.keeps hf).mono (fun p hp ↦ ?_) (fun _ hi ↦ hi)
    exact Std.TreeMap.mem_insert.mpr (.inr hp)
  · intro i p
    rw [hmembers]
    exact h.mem_members
  · intro p
    rw [hmembers]
    exact h.members_sorted p

theorem Coherent.insertConstant {k : Constant Float} (h : c.Coherent)
    (hc : c.insertConstant k = .ok c') : c'.Coherent := by
  obtain ⟨hid, hlast, rfl⟩ := insertConstant_eq_ok_iff.mp hc
  refine ⟨h.quantity_id, ?_, h.formula_id, h.quantity_lt, ?_, h.formula_lt, h.names_iff, ?_, h.mem_members,
    h.members_sorted⟩
  · intro i p hp
    by_cases hk : k.id = i
    · subst hk
      simp_all
    · exact h.constant_id (by simpa [Std.TreeMap.getElem?_insert, hk] using hp)
  · exact Table.forall_mem_insert hlast h.constant_lt
  · intro i f hf
    refine (h.keeps hf).mono (fun _ hi ↦ hi) (fun p hp ↦ ?_)
    exact Std.TreeMap.mem_insert.mpr (.inr hp)

theorem Coherent.insertFormula {f : Formula} (h : c.Coherent) (hc : c.insertFormula f = .ok c') :
    c'.Coherent := by
  obtain ⟨hkeeps, hid, hlast, rfl⟩ := insertFormula_eq_ok_iff.mp hc
  refine ⟨h.quantity_id, h.constant_id, ?_, h.quantity_lt, h.constant_lt,
    Table.forall_mem_insert hlast h.formula_lt, h.names_iff, ?_, ?_, addMembers_sorted h.members_sorted⟩
  · intro i g hg
    by_cases hf : f.id = i
    · subst hf
      simp only [Std.TreeMap.getElem?_insert_self, Option.some.injEq] at hg
      exact hg ▸ rfl
    · exact h.formula_id (by simpa [Std.TreeMap.getElem?_insert, hf] using hg)
  · intro i g hg
    by_cases hf : f.id = i
    · subst hf
      simp only [Std.TreeMap.getElem?_insert_self, Option.some.injEq] at hg
      exact hg ▸ hkeeps.mono (fun _ hi ↦ hi) (fun _ hi ↦ hi)
    · have hg' : c.formulas[i]? = some g := by simpa [Std.TreeMap.getElem?_insert, hf] using hg
      exact (h.keeps hg').mono (fun _ hi ↦ hi) (fun _ hi ↦ hi)
  · intro i q
    rw [mem_addMembers, h.mem_members]
    change _ ∨ i = f.id ∧ _ ↔ _
    by_cases hf : f.id = i
    · subst hf
      have hnone : c.formulas[f.id]? = none := Std.TreeMap.getElem?_eq_none hid
      simp [hnone]
    · simp [Std.TreeMap.getElem?_insert, hf, Ne.symm hf]

/-- An attempt to add leaves a coherent catalogue, whether or not it succeeds. -/
theorem Coherent.afterAdding {i : Nat} {attempt : Except Failure Catalogue} (h : c.Coherent)
    (ha : ∀ c', attempt = .ok c' → c'.Coherent) : (Catalogue.afterAdding c i attempt).2.Coherent := by
  cases attempt with
  | error e => exact h
  | ok c' => exact ha c' rfl

/-- Writing keeps a catalogue coherent. -/
theorem Grown.coherent (h : c.Grown) : c.Coherent := by
  induction h with
  | empty => exact coherent_empty
  | insertQuantity _ hc ih => exact ih.insertQuantity hc
  | insertConstant _ hc ih => exact ih.insertConstant hc
  | insertFormula _ hc ih => exact ih.insertFormula hc
  | @addQuantity c name symbol unit _ ih =>
    have hspent := ih.withNext (Ids.next c.nextQuantity) c.nextConstant c.nextFormula
    exact hspent.afterAdding fun c' hc ↦ hspent.insertQuantity hc
  | @addConstant c name symbol value unit _ ih =>
    have hspent := ih.withNext c.nextQuantity (Ids.next c.nextConstant) c.nextFormula
    exact hspent.afterAdding fun c' hc ↦ hspent.insertConstant hc
  | @addFormula c name expression quantities constants _ ih =>
    have hspent := ih.withNext c.nextQuantity c.nextConstant (Ids.next c.nextFormula)
    exact hspent.afterAdding fun c' hc ↦ hspent.insertFormula hc

/-! ## Reading a coherent catalogue -/

namespace Coherent

theorem mem_allFormulas {f : Formula} (h : c.Coherent) :
    f ∈ c.allFormulas ↔ c.formulas[f.id]? = some f := Table.mem_values h.formula_id

theorem keeps_of_mem {f : Formula} (h : c.Coherent) (hf : f ∈ c.allFormulas) : c.Keeps f :=
  h.keeps (h.mem_allFormulas.mp hf)

/-- The formulas found under a quantity are those that relate it. -/
theorem mem_formulasReferencing {f : Formula} {q : QuantityId} (h : c.Coherent) :
    f ∈ c.formulasReferencing q ↔ f ∈ c.allFormulas ∧ q ∈ f.quantities := by
  rw [formulasReferencing, List.mem_filterMap, h.mem_allFormulas]
  constructor
  · rintro ⟨i, hi, hf⟩
    obtain ⟨g, hg, hq⟩ := h.mem_members.mp hi
    rw [hf] at hg
    cases hg
    rw [h.formula_id hf]
    exact ⟨hf, hq⟩
  · rintro ⟨hf, hq⟩
    exact ⟨f.id, h.mem_members.mpr ⟨f, hf, hq⟩, hf⟩

end Coherent

end Catalogue

end FormulaNet

import FormulaNet.Proofs.Knowledge.Growth

/-!
# Loading formulas

A formula is loaded together with the quantities and constants that it refers to, one after the other.
`LoadedFormula.Of` says what comes of it; in a coherent catalogue every formula that is kept can be loaded,
since all that it refers to is there.
-/

namespace FormulaNet

/-! ## Lists side by side -/

section Lists

variable {α β : Type} {R : α → β → Prop} {as : List α} {bs : List β}

theorem exists_of_mem_right (h : List.Forall₂ R as bs) {b : β} (hb : b ∈ bs) : ∃ a ∈ as, R a b := by
  induction h with
  | nil => cases hb
  | cons hab _ ih =>
      rcases List.mem_cons.mp hb with rfl | hb
      · exact ⟨_, List.mem_cons_self, hab⟩
      · obtain ⟨a, ha, hab⟩ := ih hb
        exact ⟨a, List.mem_cons_of_mem _ ha, hab⟩

/-- Where the right list is split, the left one can be. -/
theorem exists_split_left {before after : List β} {b : β} (h : List.Forall₂ R as (before ++ b :: after)) :
    ∃ front a back, as = front ++ a :: back ∧ List.Forall₂ R front before ∧ R a b ∧
      List.Forall₂ R back after := by
  induction before generalizing as with
  | nil =>
      obtain ⟨a, back, hab, hback, rfl⟩ := List.forall₂_cons_right_iff.mp h
      exact ⟨[], a, back, rfl, .nil, hab, hback⟩
  | cons c before ih =>
      obtain ⟨x, as, hxc, has, rfl⟩ := List.forall₂_cons_right_iff.mp h
      obtain ⟨front, a, back, rfl, hfront, hab, hback⟩ := ih has
      exact ⟨x :: front, a, back, rfl, .cons hxc hfront, hab, hback⟩

/-- Where everything on a list has a partner, there is a list of partners. -/
theorem exists_forall₂ (h : ∀ a ∈ as, ∃ b, R a b) : ∃ bs, List.Forall₂ R as bs := by
  induction as with
  | nil => exact ⟨[], .nil⟩
  | cons a as ih =>
      obtain ⟨b, hb⟩ := h a List.mem_cons_self
      obtain ⟨bs, hbs⟩ := ih fun a ha ↦ h a (List.mem_cons_of_mem _ ha)
      exact ⟨b :: bs, .cons hb hbs⟩

/-- Partners that tell where they belong give the list back. -/
theorem map_eq_of_forall₂ {key : β → α} (h : List.Forall₂ R as bs) (hkey : ∀ a b, R a b → key b = a) :
    bs.map key = as := by
  induction h with
  | nil => rfl
  | cons hab _ ih => rw [List.map_cons, hkey _ _ hab, ih]

end Lists

/-! ## What is loaded -/

/-- A formula as the catalogue keeps it, together with what it refers to. -/
structure LoadedFormula.Of (c : Catalogue) (i : FormulaId) (f : LoadedFormula Float) : Prop where
  formula : c.formulas[i]? = some f.formula
  quantities : List.Forall₂ (fun i q ↦ c.quantities[i]? = some q) f.formula.quantities f.quantities
  constants : List.Forall₂ (fun i k ↦ c.constants[i]? = some k) f.formula.constants f.constants

theorem Source.found_eq_ok_iff {α : Type} {what : Missing} {x : Option α} {a : α} :
    Source.found what x = .ok a ↔ x = some a := by
  cases x <;> simp [Source.found]

namespace Catalogue

variable {c : Catalogue} {i : FormulaId} {f : LoadedFormula Float} {q : Quantity}

theorem load_eq_ok_iff : c.source.load i = .ok f ↔ f.Of c i := by
  simp only [Source.load, source, bind_eq_ok_iff, mapM_eq_ok_iff, Source.found_eq_ok_iff, Except.ok.injEq,
    exists_eq_left']
  constructor
  · rintro ⟨formula, hf, quantities, hq, constants, hk, rfl⟩
    exact ⟨hf, hq, hk⟩
  · rintro ⟨hf, hq, hk⟩
    exact ⟨f.formula, hf, f.quantities, hq, f.constants, hk, rfl⟩

namespace Coherent

/-- The quantity found in a loaded formula is the one that the catalogue keeps. -/
theorem quantity?_eq_some (h : c.Coherent) (hf : f.Of c i) {id : QuantityId}
    (hq : f.quantity? id = some q) : c.quantities[id]? = some q := by
  have hid : q.id = id := by simpa using List.find?_some hq
  obtain ⟨j, -, hj⟩ := exists_of_mem_right hf.quantities (List.mem_of_find?_eq_some hq)
  rw [← hid, h.quantity_id hj]
  exact hj

/-- The quantities of a loaded formula are those that it names, in its order. -/
theorem quantity_ids (h : c.Coherent) (hf : f.Of c i) : f.quantities.map (·.id) = f.formula.quantities :=
  map_eq_of_forall₂ hf.quantities fun _ _ ↦ h.quantity_id

theorem constant_ids (h : c.Coherent) (hf : f.Of c i) : f.constants.map (·.id) = f.formula.constants :=
  map_eq_of_forall₂ hf.constants fun _ _ ↦ h.constant_id

/-- A quantity that a loaded formula names is found in it. -/
theorem exists_quantity? (h : c.Coherent) (hf : f.Of c i) {id : QuantityId}
    (hid : id ∈ f.formula.quantities) : ∃ q, f.quantity? id = some q := by
  rw [← h.quantity_ids hf, List.mem_map] at hid
  obtain ⟨q, hq, rfl⟩ := hid
  exact Option.isSome_iff_exists.mp (List.find?_isSome.mpr ⟨q, hq, by simp⟩)

/-- Every formula that is kept can be loaded. -/
theorem exists_of (h : c.Coherent) {g : Formula} (hg : c.formulas[i]? = some g) :
    ∃ f : LoadedFormula Float, f.Of c i ∧ f.formula = g := by
  have hkeeps := h.keeps hg
  obtain ⟨quantities, hq⟩ := exists_forall₂ fun q hq ↦ Table.exists_of_mem (hkeeps.quantities_mem q hq)
  obtain ⟨constants, hk⟩ := exists_forall₂ fun k hk ↦ Table.exists_of_mem (hkeeps.constants_mem k hk)
  exact ⟨⟨g, quantities, constants⟩, ⟨hg, hq, hk⟩, rfl⟩

end Coherent

end Catalogue

end FormulaNet

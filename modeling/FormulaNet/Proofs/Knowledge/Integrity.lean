import FormulaNet.Proofs.Knowledge.Loading

/-!
# What readers of a catalogue can rely on

A history is a list of writes, refused ones among them.  Whatever the history, the catalogue after it has
integrity: quantities are found by id and by name and the two ways agree, every formula refers to what is
there and can be loaded, and the formulas found under a quantity are those that a scan of all formulas would
find.
-/

namespace FormulaNet

/-- One attempt to change a catalogue. -/
inductive Write where
  | insertQuantity (q : Quantity)
  | insertConstant (k : Constant Float)
  | insertFormula (f : Formula)
  | addQuantity (name symbol unit : String)
  | addConstant (name symbol : String) (value : Float) (unit : String)
  | addFormula (name expression : String) (quantities : List QuantityId) (constants : List ConstantId)

namespace Catalogue

variable {c c' : Catalogue}

/-! ## Histories -/

/-- The catalogue after an attempt, which may be refused.  An attempt that overflows leaves no catalogue at
all; what it started from stands in, with the id used up if it is an addition. -/
def write (c : Catalogue) : Write → Catalogue
  | .insertQuantity q => (c.insertQuantity q).toOption.getD c
  | .insertConstant k => (c.insertConstant k).toOption.getD c
  | .insertFormula f => (c.insertFormula f).toOption.getD c
  | .addQuantity name symbol unit => (c.addQuantity name symbol unit).2
  | .addConstant name symbol value unit => (c.addConstant name symbol value unit).2
  | .addFormula name expression quantities constants =>
    (c.addFormula name expression quantities constants).2

/-- The catalogue after a history of writes. -/
def after (history : List Write) : Catalogue := history.foldl write empty

theorem after_concat (history : List Write) (w : Write) : after (history ++ [w]) = (after history).write w := by
  rw [after, List.foldl_append]
  rfl

/-- A write leads from what writing leads to on to the same. -/
theorem Grown.write (h : c.Grown) (w : Write) : (c.write w).Grown := by
  -- an insertion leaves the catalogue as it is unless it succeeds
  have kept : ∀ {attempt : Except Failure Catalogue}, (∀ c', attempt = .ok c' → c'.Grown) →
      (attempt.toOption.getD c).Grown := by
    intro attempt ha
    cases attempt with
    | error e => exact h
    | ok c' => exact ha c' rfl
  cases w with
  | insertQuantity q => exact kept fun _ hc ↦ h.insertQuantity hc
  | insertConstant k => exact kept fun _ hc ↦ h.insertConstant hc
  | insertFormula f => exact kept fun _ hc ↦ h.insertFormula hc
  | addQuantity name symbol unit => exact h.addQuantity name symbol unit
  | addConstant name symbol value unit => exact h.addConstant name symbol value unit
  | addFormula name expression quantities constants =>
      exact h.addFormula name expression quantities constants

/-- The catalogues that writing leads to are those after some history. -/
theorem grown_iff_exists_after : c.Grown ↔ ∃ history, after history = c := by
  constructor
  · intro h
    induction h with
    | empty => exact ⟨[], rfl⟩
    | @insertQuantity _ _ q _ hc ih =>
        obtain ⟨history, rfl⟩ := ih
        exact ⟨history ++ [.insertQuantity q], by rw [after_concat, Catalogue.write, hc]; rfl⟩
    | @insertConstant _ _ k _ hc ih =>
        obtain ⟨history, rfl⟩ := ih
        exact ⟨history ++ [.insertConstant k], by rw [after_concat, Catalogue.write, hc]; rfl⟩
    | @insertFormula _ _ f _ hc ih =>
        obtain ⟨history, rfl⟩ := ih
        exact ⟨history ++ [.insertFormula f], by rw [after_concat, Catalogue.write, hc]; rfl⟩
    | addQuantity name symbol unit _ ih =>
        obtain ⟨history, rfl⟩ := ih
        exact ⟨history ++ [.addQuantity name symbol unit], after_concat _ _⟩
    | addConstant name symbol value unit _ ih =>
        obtain ⟨history, rfl⟩ := ih
        exact ⟨history ++ [.addConstant name symbol value unit], after_concat _ _⟩
    | addFormula name expression quantities constants _ ih =>
        obtain ⟨history, rfl⟩ := ih
        exact ⟨history ++ [.addFormula name expression quantities constants], after_concat _ _⟩
  · rintro ⟨history, rfl⟩
    -- from any catalogue that writing leads to
    have run : ∀ (history : List Write) (c : Catalogue), c.Grown →
        (history.foldl Catalogue.write c).Grown := by
      intro history
      induction history with
      | nil => exact fun _ h ↦ h
      | cons w history ih => exact fun c h ↦ ih _ (h.write w)
    exact run history empty .empty

/-! ## Reading -/

@[simp] theorem source_quantity (i : QuantityId) : c.source.quantity i = .ok c.quantities[i]? := rfl
@[simp] theorem source_idByName (name : String) : c.source.idByName name = .ok c.names[name]? := rfl
@[simp] theorem source_formula (i : FormulaId) : c.source.formula i = .ok c.formulas[i]? := rfl

namespace Coherent

theorem mem_allQuantities {q : Quantity} (h : c.Coherent) :
    q ∈ c.allQuantities ↔ c.quantities[q.id]? = some q := Table.mem_values h.quantity_id

theorem quantity_eq_some_iff {i : QuantityId} {q : Quantity} (h : c.Coherent) :
    c.quantities[i]? = some q ↔ q ∈ c.allQuantities ∧ q.id = i := Table.getElem?_eq_some_iff h.quantity_id

theorem formula_eq_some_iff {i : FormulaId} {f : Formula} (h : c.Coherent) :
    c.formulas[i]? = some f ↔ f ∈ c.allFormulas ∧ f.id = i := Table.getElem?_eq_some_iff h.formula_id

theorem ascending_allQuantities (h : c.Coherent) : c.allQuantities.Pairwise (·.id < ·.id) :=
  Table.ascending_values h.quantity_id

theorem ascending_allFormulas (h : c.Coherent) : c.allFormulas.Pairwise (·.id < ·.id) :=
  Table.ascending_values h.formula_id

/-- A quantity is found by its name, and only by it. -/
theorem quantityByName_eq_ok_iff {name : String} {q : Quantity} (h : c.Coherent) :
    c.source.quantityByName name = .ok (some q) ↔ q ∈ c.allQuantities ∧ q.name = name := by
  rw [Source.quantityByName, bind_eq_ok_iff]
  constructor
  · rintro ⟨found, hfound, hq⟩
    obtain rfl : c.names[name]? = found := Except.ok.inj hfound
    split at hq
    · next i hi =>
      obtain ⟨p, hp, rfl⟩ := h.names_iff.mp hi
      obtain rfl : p = q := Option.some.inj (hp.symm.trans (Except.ok.inj hq))
      exact ⟨(h.quantity_eq_some_iff.mp hp).1, rfl⟩
    · cases hq
  · rintro ⟨hq, rfl⟩
    have hq := h.mem_allQuantities.mp hq
    refine ⟨some q.id, congrArg Except.ok (h.names_iff.mpr ⟨q, hq, rfl⟩), ?_⟩
    exact congrArg Except.ok hq

/-- No two quantities have one name. -/
theorem nodup_names (h : c.Coherent) : (c.allQuantities.map (·.name)).Nodup := by
  refine List.pairwise_map.mpr (h.ascending_allQuantities.imp_of_mem fun {p q} hp hq hpq hname ↦ ?_)
  have hi := h.names_iff.mpr ⟨p, h.mem_allQuantities.mp hp, hname⟩
  have hj := h.names_iff.mpr ⟨q, h.mem_allQuantities.mp hq, rfl⟩
  exact Nat.ne_of_lt hpq (Option.some.inj (hi.symm.trans hj))

theorem ascending_formulasReferencing (h : c.Coherent) (q : QuantityId) :
    (c.formulasReferencing q).Pairwise (·.id < ·.id) := by
  rw [formulasReferencing, List.pairwise_filterMap]
  refine (h.members_sorted q).imp fun {i j} hij f hf g hg ↦ ?_
  rw [h.formula_id hf, h.formula_id hg]
  exact hij

/-- Looking under a quantity finds what a scan of all formulas would. -/
theorem formulasReferencing_eq_filter (h : c.Coherent) (q : QuantityId) :
    c.formulasReferencing q = c.allFormulas.filter (q ∈ ·.quantities) := by
  refine Table.eq_of_ascending (h.ascending_formulasReferencing q) (h.ascending_allFormulas.filter _) fun f ↦ ?_
  rw [h.mem_formulasReferencing, List.mem_filter, decide_eq_true_eq]

/-- Every formula that is listed can be loaded, and comes with what it refers to. -/
theorem exists_load {f : Formula} (h : c.Coherent) (hf : f ∈ c.allFormulas) :
    ∃ g, c.source.load f.id = .ok g ∧ g.formula = f ∧ g.quantities.map (·.id) = f.quantities ∧
      g.constants.map (·.id) = f.constants := by
  obtain ⟨g, hg, rfl⟩ := h.exists_of (h.mem_allFormulas.mp hf)
  exact ⟨g, load_eq_ok_iff.mpr hg, rfl, h.quantity_ids hg, h.constant_ids hg⟩

end Coherent

/-! ## Integrity -/

/-- What can be read from a catalogue fits together. -/
structure Integrity (c : Catalogue) : Prop where
  quantities_ascending : c.allQuantities.Pairwise (·.id < ·.id)
  /-- A quantity is found under its id and under no other. -/
  quantity_iff : ∀ i q, c.source.quantity i = .ok (some q) ↔ q ∈ c.allQuantities ∧ q.id = i
  names_nodup : (c.allQuantities.map (·.name)).Nodup
  /-- From a name to an id leads the same way as from the id to the name. -/
  idByName_iff : ∀ name i, c.source.idByName name = .ok (some i) ↔
    ∃ q, c.source.quantity i = .ok (some q) ∧ q.name = name
  /-- A quantity is found under its name and under no other. -/
  quantityByName_iff : ∀ name q, c.source.quantityByName name = .ok (some q) ↔
    q ∈ c.allQuantities ∧ q.name = name
  formulas_ascending : c.allFormulas.Pairwise (·.id < ·.id)
  formula_iff : ∀ i f, c.source.formula i = .ok (some f) ↔ f ∈ c.allFormulas ∧ f.id = i
  /-- A formula relates some quantity, none of them twice, and refers to what is there. -/
  keeps : ∀ f ∈ c.allFormulas, c.Keeps f
  loads : ∀ f ∈ c.allFormulas, ∃ g, c.source.load f.id = .ok g ∧ g.formula = f ∧
    g.quantities.map (·.id) = f.quantities ∧ g.constants.map (·.id) = f.constants
  /-- Looking under a quantity finds what a scan of all formulas would, in the same order. -/
  referencing : ∀ q, c.source.formulasReferencing q = .ok (c.allFormulas.filter (q ∈ ·.quantities))

/-- **Catalogues keep their integrity**, whatever is written, in whatever order, and whether or not it is
refused. -/
theorem integrity_after (history : List Write) : (after history).Integrity := by
  have h : (after history).Coherent := (grown_iff_exists_after.mpr ⟨history, rfl⟩).coherent
  exact {
    quantities_ascending := h.ascending_allQuantities
    quantity_iff i q := by rw [source_quantity, Except.ok.injEq, h.quantity_eq_some_iff]
    names_nodup := h.nodup_names
    idByName_iff name i := by simp only [source_idByName, source_quantity, Except.ok.injEq, h.names_iff]
    quantityByName_iff _ _ := h.quantityByName_eq_ok_iff
    formulas_ascending := h.ascending_allFormulas
    formula_iff i f := by rw [source_formula, Except.ok.injEq, h.formula_eq_some_iff]
    keeps _ hf := h.keeps_of_mem hf
    loads _ hf := h.exists_load hf
    referencing q := congrArg Except.ok (h.formulasReferencing_eq_filter q) }

/-- Formulas come by ascending id, in whatever order they were inserted and however often they name a
quantity; refused writes leave nothing behind. -/
example : ((after [.addQuantity "distance" "s" "m", .addQuantity "time" "t" "s",
    .insertFormula ⟨7, "uniform motion", "s = 3 * t", [1, 2], []⟩, .addQuantity "time" "T" "s",
    .insertFormula ⟨3, "free fall", "s = 5 * t^2", [2, 1, 2], []⟩,
    .insertFormula ⟨4, "unknown quantity", "t = x", [2, 9], []⟩]).formulasReferencing 2).map (·.id) =
      [3, 7] := by
  decide

end Catalogue

end FormulaNet

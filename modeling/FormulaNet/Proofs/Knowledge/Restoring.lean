import FormulaNet.Proofs.Knowledge.Integrity

/-!
# Catalogues and their snapshots

A snapshot is read by inserting its entries one after the other into an empty catalogue.  That succeeds if
the snapshot is well formed, none of its ids being the last one, and the catalogue then shows the snapshot
again, with its lists sorted and the formulas without repetitions.  A coherent catalogue holds nothing that
its snapshot does not show, so that a catalogue and one restored from its snapshot cannot be told apart by
reading.
-/

namespace FormulaNet

namespace Snapshot

/-- Nothing is there twice, formulas relate some quantity and refer to what is there, and there is an id after
each. -/
structure WellFormed (s : Snapshot) : Prop where
  quantity_ids : (s.quantities.map (·.id)).Nodup
  quantity_names : (s.quantities.map (·.name)).Nodup
  constant_ids : (s.constants.map (·.id)).Nodup
  formula_ids : (s.formulas.map (·.id)).Nodup
  quantities_lt : ∀ q ∈ s.quantities, q.id < Ids.last
  constants_lt : ∀ k ∈ s.constants, k.id < Ids.last
  formulas_lt : ∀ f ∈ s.formulas, f.id < Ids.last
  nonempty : ∀ f ∈ s.formulas, f.quantities ≠ []
  quantities_mem : ∀ f ∈ s.formulas, ∀ i ∈ f.quantities, ∃ q ∈ s.quantities, q.id = i
  constants_mem : ∀ f ∈ s.formulas, ∀ i ∈ f.constants, ∃ k ∈ s.constants, k.id = i

/-- The snapshot with its lists sorted by id, and of the ids in a formula the first occurrences only. -/
def sorted (s : Snapshot) : Snapshot where
  quantities := s.quantities.mergeSort (·.id ≤ ·.id)
  constants := s.constants.mergeSort (·.id ≤ ·.id)
  formulas := (s.formulas.map Catalogue.withoutRepeats).mergeSort (·.id ≤ ·.id)

end Snapshot

namespace Catalogue

variable {c c' : Catalogue} {s : Snapshot}

/-! ## Putting entries in -/

/-- A catalogue with one more quantity, whether or not it fits. -/
def putQuantity (c : Catalogue) (q : Quantity) : Catalogue :=
  { c with
    quantities := c.quantities.insert q.id q
    names := c.names.insert q.name q.id
    members := c.members.insert q.id (c.members.getD q.id [])
    nextQuantity := max c.nextQuantity (q.id + 1) }

def putConstant (c : Catalogue) (k : Constant Float) : Catalogue :=
  { c with
    constants := c.constants.insert k.id k
    nextConstant := max c.nextConstant (k.id + 1) }

def putFormula (c : Catalogue) (f : Formula) : Catalogue :=
  { c with
    formulas := c.formulas.insert f.id (withoutRepeats f)
    members := addMembers c.members (withoutRepeats f)
    nextFormula := max c.nextFormula (f.id + 1) }

/-- The catalogue with all entries of a snapshot. -/
def filled (s : Snapshot) : Catalogue :=
  s.formulas.foldl putFormula (s.constants.foldl putConstant (s.quantities.foldl putQuantity empty))

theorem foldlM_insertQuantity_eq_ok_iff {qs : List Quantity} :
    qs.foldlM insertQuantity c = .ok c' ↔
      qs.Pairwise (fun p q ↦ p.name ≠ q.name ∧ p.id ≠ q.id) ∧
        (∀ q ∈ qs, q.name ∉ c.names ∧ q.id ∉ c.quantities ∧ q.id < Ids.last) ∧
        c' = qs.foldl putQuantity c := by
  refine foldlM_eq_ok_iff (fun (c : Catalogue) (q : Quantity) ↦
    q.name ∉ c.names ∧ q.id ∉ c.quantities ∧ q.id < Ids.last)
    (fun p q ↦ p.name ≠ q.name ∧ p.id ≠ q.id) (fun c q c' ↦ ?_) fun c p q ↦ ?_
  · rw [insertQuantity_eq_ok_iff, and_assoc, and_assoc]
    rfl
  · simp only [putQuantity, Std.TreeMap.mem_insert, Std.LawfulEqCmp.compare_eq_iff_eq]
    tauto

theorem foldlM_insertConstant_eq_ok_iff {ks : List (Constant Float)} :
    ks.foldlM insertConstant c = .ok c' ↔
      ks.Pairwise (fun k l ↦ k.id ≠ l.id) ∧ (∀ k ∈ ks, k.id ∉ c.constants ∧ k.id < Ids.last) ∧
        c' = ks.foldl putConstant c := by
  refine foldlM_eq_ok_iff (fun (c : Catalogue) (k : Constant Float) ↦ k.id ∉ c.constants ∧ k.id < Ids.last)
    (fun k l ↦ k.id ≠ l.id) (fun c k c' ↦ ?_) fun c k l ↦ ?_
  · rw [insertConstant_eq_ok_iff, and_assoc]
    rfl
  · simp only [putConstant, Std.TreeMap.mem_insert, Std.LawfulEqCmp.compare_eq_iff_eq]
    tauto

theorem foldlM_insertFormula_eq_ok_iff {fs : List Formula} :
    fs.foldlM insertFormula c = .ok c' ↔
      fs.Pairwise (fun f g ↦ f.id ≠ g.id) ∧
        (∀ f ∈ fs, c.Keeps (withoutRepeats f) ∧ f.id ∉ c.formulas ∧ f.id < Ids.last) ∧
        c' = fs.foldl putFormula c := by
  refine foldlM_eq_ok_iff (fun (c : Catalogue) (f : Formula) ↦ c.Keeps (withoutRepeats f) ∧
    f.id ∉ c.formulas ∧ f.id < Ids.last) (fun f g ↦ f.id ≠ g.id) (fun c f c' ↦ ?_) fun c f g ↦ ?_
  · rw [insertFormula_eq_ok_iff, and_assoc, and_assoc]
    rfl
  · -- which formulas a catalogue may keep does not depend on those it has
    have hkeeps : (c.putFormula f).Keeps (withoutRepeats g) ↔ c.Keeps (withoutRepeats g) :=
      ⟨fun h ↦ h.mono (fun _ hi ↦ hi) fun _ hi ↦ hi, fun h ↦ h.mono (fun _ hi ↦ hi) fun _ hi ↦ hi⟩
    rw [hkeeps]
    simp only [putFormula, Std.TreeMap.mem_insert, Std.LawfulEqCmp.compare_eq_iff_eq]
    tauto

/-! ## The tables of a filled catalogue -/

theorem tables_foldl_putQuantity (qs : List Quantity) (c : Catalogue) :
    (qs.foldl putQuantity c).quantities = qs.foldl (fun table q ↦ table.insert q.id q) c.quantities ∧
      (qs.foldl putQuantity c).constants = c.constants ∧ (qs.foldl putQuantity c).formulas = c.formulas := by
  induction qs generalizing c with
  | nil => exact ⟨rfl, rfl, rfl⟩
  | cons q qs ih => exact ih (c.putQuantity q)

theorem tables_foldl_putConstant (ks : List (Constant Float)) (c : Catalogue) :
    (ks.foldl putConstant c).quantities = c.quantities ∧
      (ks.foldl putConstant c).constants = ks.foldl (fun table k ↦ table.insert k.id k) c.constants ∧
      (ks.foldl putConstant c).formulas = c.formulas := by
  induction ks generalizing c with
  | nil => exact ⟨rfl, rfl, rfl⟩
  | cons k ks ih => exact ih (c.putConstant k)

theorem tables_foldl_putFormula (fs : List Formula) (c : Catalogue) :
    (fs.foldl putFormula c).quantities = c.quantities ∧ (fs.foldl putFormula c).constants = c.constants ∧
      (fs.foldl putFormula c).formulas =
        (fs.map withoutRepeats).foldl (fun table f ↦ table.insert f.id f) c.formulas := by
  induction fs generalizing c with
  | nil => exact ⟨rfl, rfl, rfl⟩
  | cons f fs ih => exact ih (c.putFormula f)

theorem tables_filled (s : Snapshot) :
    (filled s).quantities = s.quantities.foldl (fun table q ↦ table.insert q.id q) ∅ ∧
      (filled s).constants = s.constants.foldl (fun table k ↦ table.insert k.id k) ∅ ∧
      (filled s).formulas =
        (s.formulas.map withoutRepeats).foldl (fun table f ↦ table.insert f.id f) ∅ := by
  obtain ⟨hq₁, hk₁, hf₁⟩ := tables_foldl_putQuantity s.quantities empty
  obtain ⟨hq₂, hk₂, hf₂⟩ := tables_foldl_putConstant s.constants (s.quantities.foldl putQuantity empty)
  obtain ⟨hq₃, hk₃, hf₃⟩ := tables_foldl_putFormula s.formulas
    (s.constants.foldl putConstant (s.quantities.foldl putQuantity empty))
  refine ⟨?_, ?_, ?_⟩
  · exact hq₃.trans (hq₂.trans hq₁)
  · exact hk₃.trans (hk₂.trans (by rw [hk₁]; rfl))
  · exact hf₃.trans (by rw [hf₂, hf₁]; rfl)

/-! ## Which snapshots can be read -/

/-- The formulas of a snapshot may be kept next to its other entries if they relate some quantity and refer
to what is there. -/
theorem keeps_putAll_iff {f : Formula} :
    (s.constants.foldl putConstant (s.quantities.foldl putQuantity empty)).Keeps (withoutRepeats f) ↔
      f.quantities ≠ [] ∧ (∀ i ∈ f.quantities, ∃ q ∈ s.quantities, q.id = i) ∧
        ∀ i ∈ f.constants, ∃ k ∈ s.constants, k.id = i := by
  obtain ⟨hq₁, hk₁, -⟩ := tables_foldl_putQuantity s.quantities empty
  obtain ⟨hq₂, hk₂, -⟩ := tables_foldl_putConstant s.constants (s.quantities.foldl putQuantity empty)
  have hquantities : ∀ i, i ∈ (s.constants.foldl putConstant
      (s.quantities.foldl putQuantity empty)).quantities ↔ ∃ q ∈ s.quantities, q.id = i := by
    intro i
    rw [hq₂, hq₁]
    exact Table.mem_foldl_insert_key
  have hconstants : ∀ i, i ∈ (s.constants.foldl putConstant
      (s.quantities.foldl putQuantity empty)).constants ↔ ∃ k ∈ s.constants, k.id = i := by
    intro i
    rw [hk₂, hk₁]
    exact Table.mem_foldl_insert_key
  simp only [keeps_withoutRepeats_iff_mem, hquantities, hconstants]

/-- A snapshot can be read if it is well formed, and all of it is put in. -/
theorem ofSnapshot_eq_ok_iff : ofSnapshot s = .ok c ↔ s.WellFormed ∧ c = filled s := by
  have hnone : ∀ k, k ∉ (s.quantities.foldl putQuantity empty).constants := by
    intro k
    rw [(tables_foldl_putQuantity s.quantities empty).2.1]
    exact Std.TreeMap.not_mem_emptyc
  have hfree : ∀ f, f ∉ (s.constants.foldl putConstant (s.quantities.foldl putQuantity empty)).formulas := by
    intro f
    rw [(tables_foldl_putConstant _ _).2.2, (tables_foldl_putQuantity s.quantities empty).2.2]
    exact Std.TreeMap.not_mem_emptyc
  unfold ofSnapshot
  simp only [bind_eq_ok_iff, foldlM_insertQuantity_eq_ok_iff, foldlM_insertConstant_eq_ok_iff,
    foldlM_insertFormula_eq_ok_iff]
  constructor
  · rintro ⟨_, ⟨hq, hfirst, rfl⟩, _, ⟨hk, hnew, rfl⟩, hf, hfits, rfl⟩
    have hkeeps := fun f hf ↦ keeps_putAll_iff.mp (hfits f hf).1
    exact ⟨{
      quantity_ids := List.pairwise_map.mpr (hq.imp And.right)
      quantity_names := List.pairwise_map.mpr (hq.imp And.left)
      constant_ids := List.pairwise_map.mpr hk
      formula_ids := List.pairwise_map.mpr hf
      quantities_lt q hq := (hfirst q hq).2.2
      constants_lt k hk := (hnew k hk).2
      formulas_lt f hf := (hfits f hf).2.2
      nonempty f hf := (hkeeps f hf).1
      quantities_mem f hf := (hkeeps f hf).2.1
      constants_mem f hf := (hkeeps f hf).2.2 }, rfl⟩
  · rintro ⟨h, rfl⟩
    have hq := (List.pairwise_map.mp h.quantity_names).and (List.pairwise_map.mp h.quantity_ids)
    have hfirst : ∀ q ∈ s.quantities, q.name ∉ empty.names ∧ q.id ∉ empty.quantities ∧ q.id < Ids.last :=
      fun q hq ↦ ⟨Std.TreeMap.not_mem_emptyc, Std.TreeMap.not_mem_emptyc, h.quantities_lt q hq⟩
    exact ⟨_, ⟨hq, hfirst, rfl⟩,
      _, ⟨List.pairwise_map.mp h.constant_ids, fun k hk ↦ ⟨hnone k.id, h.constants_lt k hk⟩, rfl⟩,
      List.pairwise_map.mp h.formula_ids,
      fun f hf ↦ ⟨keeps_putAll_iff.mpr ⟨h.nonempty f hf, h.quantities_mem f hf, h.constants_mem f hf⟩,
        hfree f.id, h.formulas_lt f hf⟩, rfl⟩

/-- A catalogue shows the snapshot that it was read from, sorted. -/
theorem snapshot_filled (h : s.WellFormed) : (filled s).snapshot = s.sorted := by
  obtain ⟨hq, hk, hf⟩ := tables_filled s
  have hids : ((s.formulas.map withoutRepeats).map (·.id)).Nodup := by
    rw [List.map_map]
    exact h.formula_ids
  unfold snapshot allQuantities allFormulas Snapshot.sorted
  rw [hq, hk, hf, Table.values_foldl_insert_key h.quantity_ids, Table.values_foldl_insert_key h.constant_ids,
    Table.values_foldl_insert_key hids]

/-! ## Catalogues that show the same -/

/-- A formula that is kept has no repetitions to drop. -/
theorem withoutRepeats_eq_self {f : Formula} (h : c.Keeps f) : withoutRepeats f = f := by
  rw [withoutRepeats, Ids.eraseDups_eq_self h.quantities_nodup, Ids.eraseDups_eq_self h.constants_nodup]

namespace Coherent

/-- The snapshot of a coherent catalogue can be read. -/
theorem wellFormed_snapshot (h : c.Coherent) : c.snapshot.WellFormed where
  quantity_ids := List.pairwise_map.mpr (h.ascending_allQuantities.imp Nat.ne_of_lt)
  quantity_names := h.nodup_names
  constant_ids := List.pairwise_map.mpr ((Table.ascending_values h.constant_id).imp Nat.ne_of_lt)
  formula_ids := List.pairwise_map.mpr (h.ascending_allFormulas.imp Nat.ne_of_lt)
  quantities_lt q hq := h.quantity_lt q.id (Table.mem_of_eq_some (h.mem_allQuantities.mp hq))
  constants_lt k hk := h.constant_lt k.id (Table.mem_of_eq_some ((Table.mem_values h.constant_id).mp hk))
  formulas_lt f hf := h.formula_lt f.id (Table.mem_of_eq_some (h.mem_allFormulas.mp hf))
  nonempty _ hf := (h.keeps_of_mem hf).nonempty
  quantities_mem f hf i hi := by
    obtain ⟨q, hq⟩ := Table.exists_of_mem ((h.keeps_of_mem hf).quantities_mem i hi)
    exact ⟨q, h.quantity_eq_some_iff.mp hq⟩
  constants_mem f hf i hi := by
    obtain ⟨k, hk⟩ := Table.exists_of_mem ((h.keeps_of_mem hf).constants_mem i hi)
    exact ⟨k, (Table.getElem?_eq_some_iff h.constant_id).mp hk⟩

/-- The snapshot of a coherent catalogue is sorted. -/
theorem sorted_snapshot (h : c.Coherent) : c.snapshot.sorted = c.snapshot := by
  have hself : c.allFormulas.map withoutRepeats = c.allFormulas := by
    refine (List.map_congr_left fun f hf ↦ ?_).trans (List.map_id _)
    exact withoutRepeats_eq_self (h.keeps_of_mem hf)
  unfold Snapshot.sorted snapshot
  simp only [hself]
  rw [Table.mergeSort_eq_self h.ascending_allQuantities, Table.mergeSort_eq_self h.ascending_allFormulas,
    Table.mergeSort_eq_self (Table.ascending_values h.constant_id)]

/-- Coherent catalogues with the same snapshot read alike. -/
theorem source_eq (h : c.Coherent) (h' : c'.Coherent) (heq : c'.snapshot = c.snapshot) :
    c'.source = c.source := by
  obtain ⟨hq, hk, hf⟩ : c'.allQuantities = c.allQuantities ∧ c'.constants.values = c.constants.values ∧
      c'.allFormulas = c.allFormulas := by
    simpa [snapshot] using heq
  have hquantity : ∀ i, c'.quantities[i]? = c.quantities[i]? := fun i ↦ by
    ext q
    rw [h'.quantity_eq_some_iff, h.quantity_eq_some_iff, hq]
  have hname : ∀ name : String, c'.names[name]? = c.names[name]? := fun name ↦ by
    ext i
    simp only [h'.names_iff, h.names_iff, hquantity]
  have hconstant : ∀ i, c'.constants[i]? = c.constants[i]? := fun i ↦ by
    ext k
    rw [Table.getElem?_eq_some_iff h'.constant_id, Table.getElem?_eq_some_iff h.constant_id, hk]
  have hformula : ∀ i, c'.formulas[i]? = c.formulas[i]? := fun i ↦ by
    ext f
    rw [h'.formula_eq_some_iff, h.formula_eq_some_iff, hf]
  have hreferencing : ∀ q, c'.formulasReferencing q = c.formulasReferencing q := fun q ↦ by
    rw [h'.formulasReferencing_eq_filter, h.formulasReferencing_eq_filter, hf]
  unfold source
  simp only [hquantity, hname, hconstant, hformula, hreferencing, hq, hf]

end Coherent

/-- **Snapshots restore catalogues.**  A snapshot can be read if and only if it is well formed, and the
catalogue read from it shows it again, sorted and without repetitions.  The snapshot of a catalogue that
writing has led to can always be read, and what it restores cannot be told apart from the catalogue. -/
theorem ofSnapshot_restores (s : Snapshot) :
    ((∃ c, ofSnapshot s = .ok c) ↔ s.WellFormed) ∧
      (∀ c, ofSnapshot s = .ok c → c.snapshot = s.sorted) ∧
      ∀ c : Catalogue, c.Grown → ∃ c', ofSnapshot c.snapshot = .ok c' ∧ c'.source = c.source ∧
        c'.snapshot = c.snapshot ∧ c'.quantityCount = c.quantityCount ∧ c'.formulaCount = c.formulaCount := by
  refine ⟨?_, ?_, ?_⟩
  · simp [ofSnapshot_eq_ok_iff]
  · intro c hc
    obtain ⟨h, rfl⟩ := ofSnapshot_eq_ok_iff.mp hc
    exact snapshot_filled h
  · intro c hc
    have h := hc.coherent
    have hread : ofSnapshot c.snapshot = .ok (filled c.snapshot) :=
      ofSnapshot_eq_ok_iff.mpr ⟨h.wellFormed_snapshot, rfl⟩
    have hsame : (filled c.snapshot).snapshot = c.snapshot :=
      (snapshot_filled h.wellFormed_snapshot).trans h.sorted_snapshot
    refine ⟨_, hread, h.source_eq (grown_ofSnapshot hread).coherent hsame, hsame, ?_, ?_⟩
    · rw [quantityCount, quantityCount, ← Table.length_values, ← Table.length_values]
      exact congrArg (·.quantities.length) hsame
    · rw [formulaCount, formulaCount, ← Table.length_values, ← Table.length_values]
      exact congrArg (·.formulas.length) hsame

/-- A snapshot whose lists do not ascend, with a formula that names a quantity twice. -/
def unsorted : Snapshot where
  quantities := [{ id := 5, name := "time", symbol := "t", unit := "s" },
    { id := 2, name := "distance", symbol := "s", unit := "m" }]
  formulas := [⟨7, "uniform motion", "s = 3 * t", [2, 5], []⟩, ⟨3, "free fall", "s = 5 * t^2", [5, 2, 5], []⟩]

/-- It is read, and comes back in order; so does what is read from the snapshot of what was read. -/
theorem ofSnapshot_unsorted :
    ∃ c c', ofSnapshot unsorted = .ok c ∧ c.allQuantities.map (·.id) = [2, 5] ∧
      c.allFormulas.map (fun f ↦ (f.id, f.quantities)) = [(3, [5, 2]), (7, [2, 5])] ∧ c.Grown ∧
      ofSnapshot c.snapshot = .ok c' ∧ c'.source = c.source := by
  obtain ⟨hread, hshows, hrestores⟩ := ofSnapshot_restores unsorted
  obtain ⟨c, hc⟩ := hread.mpr {
    quantity_ids := by decide
    quantity_names := by decide
    constant_ids := by decide
    formula_ids := by decide
    quantities_lt := by decide
    constants_lt := by decide
    formulas_lt := by decide
    nonempty := by decide
    quantities_mem := by decide
    constants_mem := by simp [unsorted] }
  obtain ⟨c', hc', hsource, -⟩ := hrestores c (grown_ofSnapshot hc)
  have hsorted := hshows c hc
  have hquantities : c.allQuantities = unsorted.sorted.quantities := congrArg (·.quantities) hsorted
  have hformulas : c.allFormulas = unsorted.sorted.formulas := congrArg (·.formulas) hsorted
  refine ⟨c, c', hc, ?_, ?_, grown_ofSnapshot hc, hc', hsource⟩
  · rw [hquantities]
    simp [Snapshot.sorted, unsorted, List.mergeSort]
  · rw [hformulas]
    simp [Snapshot.sorted, unsorted, List.mergeSort, withoutRepeats, List.eraseDups_cons]

end Catalogue

end FormulaNet

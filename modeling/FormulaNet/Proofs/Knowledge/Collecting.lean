import FormulaNet.Proofs.Knowledge.Restoring

/-!
# Snapshots taken by reading

A snapshot of any source can be taken by reading it: quantities and formulas are listed, constants are looked
up one by one, as far as formulas name them.  Taken of a catalogue, it is the snapshot that the catalogue shows
itself, less the constants that no formula uses; every look-up finds something, since formulas refer only to
what is there.  It can be read again, and the catalogue read from it shows it as it is.
-/

namespace FormulaNet

namespace Snapshot

/-- A snapshot without the constants that no formula uses. -/
def withoutUnused (s : Snapshot) : Snapshot :=
  { s with constants := s.constants.filter fun k ↦ s.formulas.any fun f ↦ k.id ∈ f.constants }

theorem mem_constants_withoutUnused {s : Snapshot} {k : Constant Float} :
    k ∈ s.withoutUnused.constants ↔ k ∈ s.constants ∧ ∃ f ∈ s.formulas, k.id ∈ f.constants := by
  simp [withoutUnused, List.mem_filter]

/-- Leaving out what is not used leaves a snapshot that can be read. -/
theorem WellFormed.withoutUnused {s : Snapshot} (h : s.WellFormed) : s.withoutUnused.WellFormed where
  quantity_ids := h.quantity_ids
  quantity_names := h.quantity_names
  constant_ids := h.constant_ids.sublist (List.filter_sublist.map _)
  formula_ids := h.formula_ids
  quantities_lt := h.quantities_lt
  constants_lt k hk := h.constants_lt k (mem_constants_withoutUnused.mp hk).1
  formulas_lt := h.formulas_lt
  nonempty := h.nonempty
  quantities_mem := h.quantities_mem
  constants_mem f hf i hi := by
    obtain ⟨k, hk, rfl⟩ := h.constants_mem f hf i hi
    exact ⟨k, mem_constants_withoutUnused.mpr ⟨hk, f, hf, hi⟩, rfl⟩

end Snapshot

theorem Source.mem_usedConstants {formulas : List Formula} {i : ConstantId} :
    i ∈ Source.usedConstants formulas ↔ ∃ f ∈ formulas, i ∈ f.constants := by
  rw [Source.usedConstants, Ids.mem_ascending, List.mem_flatMap]

namespace Catalogue

variable {c : Catalogue}

/-- Reading a catalogue never fails, so a snapshot can be taken of it. -/
theorem source_snapshot_eq : c.source.snapshot = .ok {
    quantities := c.allQuantities
    constants := (Source.usedConstants c.allFormulas).filterMap (c.constants[·]?)
    formulas := c.allFormulas } := by
  have hlookups : (Source.usedConstants c.allFormulas).mapM c.source.constant =
      .ok ((Source.usedConstants c.allFormulas).map (c.constants[·]?)) := List.mapM_pure
  unfold Source.snapshot
  rw [bind_eq_ok_iff]
  refine ⟨c.allQuantities, rfl, bind_eq_ok_iff.mpr ⟨c.allFormulas, rfl, bind_eq_ok_iff.mpr ⟨_, hlookups, ?_⟩⟩⟩
  rw [List.filterMap_map]
  rfl

namespace Coherent

/-- Looking up the ids that formulas use finds the constants that are used, by ascending id. -/
theorem filterMap_usedConstants (h : c.Coherent) :
    (Source.usedConstants c.allFormulas).filterMap (c.constants[·]?) = c.snapshot.withoutUnused.constants := by
  have hfound : ((Source.usedConstants c.allFormulas).filterMap (c.constants[·]?)).Pairwise
      (·.id < ·.id) := by
    rw [List.pairwise_filterMap]
    refine (Ids.pairwise_ascending _).imp fun {i j} hij k hk l hl ↦ ?_
    rw [h.constant_id hk, h.constant_id hl]
    exact hij
  have hlisted : c.snapshot.withoutUnused.constants.Pairwise (·.id < ·.id) :=
    (Table.ascending_values h.constant_id).filter _
  refine Table.eq_of_ascending hfound hlisted fun k ↦ ?_
  rw [List.mem_filterMap, Snapshot.mem_constants_withoutUnused]
  constructor
  · rintro ⟨i, hi, hk⟩
    obtain ⟨hlist, rfl⟩ := (Table.getElem?_eq_some_iff h.constant_id).mp hk
    exact ⟨hlist, Source.mem_usedConstants.mp hi⟩
  · rintro ⟨hlist, hused⟩
    exact ⟨k.id, Source.mem_usedConstants.mpr hused, (Table.mem_values h.constant_id).mp hlist⟩

/-- The snapshot of a coherent catalogue stays sorted when constants are left out of it. -/
theorem sorted_withoutUnused (h : c.Coherent) : c.snapshot.withoutUnused.sorted = c.snapshot.withoutUnused := by
  have hsorted := h.sorted_snapshot
  have hconstants : c.snapshot.withoutUnused.constants.Pairwise (·.id < ·.id) :=
    (Table.ascending_values h.constant_id).filter _
  unfold Snapshot.sorted at hsorted ⊢
  rw [Table.mergeSort_eq_self hconstants]
  have hquantities := congrArg Snapshot.quantities hsorted
  have hformulas := congrArg Snapshot.formulas hsorted
  exact congrArg₂ (fun quantities formulas ↦ (⟨quantities, _, formulas⟩ : Snapshot)) hquantities hformulas

end Coherent

/-- **Two ways to copy a catalogue agree.**  Whatever has been written, the snapshot taken by reading is the one
that the catalogue shows itself, less the constants that no formula uses, with the rest in their order; it can be
read, and comes back unchanged from what is read. -/
theorem source_snapshot_after (history : List Write) :
    (after history).source.snapshot = .ok (after history).snapshot.withoutUnused ∧
      ∃ c, ofSnapshot (after history).snapshot.withoutUnused = .ok c ∧
        c.snapshot = (after history).snapshot.withoutUnused := by
  have h : (after history).Coherent := (grown_iff_exists_after.mpr ⟨history, rfl⟩).coherent
  have hwell := h.wellFormed_snapshot.withoutUnused
  refine ⟨?_, _, ofSnapshot_eq_ok_iff.mpr ⟨hwell, rfl⟩, (snapshot_filled hwell).trans h.sorted_withoutUnused⟩
  rw [source_snapshot_eq, h.filterMap_usedConstants]
  rfl

end Catalogue

end FormulaNet

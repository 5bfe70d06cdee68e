import FormulaNet.Proofs.Knowledge.Attempts
import FormulaNet.Proofs.Knowledge.Restoring

/-!
# How a catalogue numbers its entries

Each kind of entry has its own ids.  An addition takes the id that its kind has counted on to and uses it up
even if it is refused; an insertion brings its id along, and counting goes on after it if it is the greatest
so far.  `Ahead` is what all writes keep: counting is ahead of every id that is stored and of every id that
has been used up.

As ids have 64 bits, this holds until an addition takes the last one.  If it is refused, counting starts over;
otherwise there is no id to go on to, and the program stops at the overflow.
-/

namespace FormulaNet

/-- The insertions that reading a snapshot consists of. -/
def Snapshot.loading (s : Snapshot) : List Write :=
  s.quantities.map .insertQuantity ++ s.constants.map .insertConstant ++ s.formulas.map .insertFormula

namespace Catalogue

variable {c c' : Catalogue} {w : Write} {k kind : Kind} {i : Nat} {seen : List Nat} {history : List Write}
  {s : Snapshot}

/-! ## Ids along a history -/

/-- The id of a kind that a write uses up, whether or not it is refused. -/
def spends (k : Kind) (c : Catalogue) (w : Write) : Option Nat :=
  if k = w.kind ∧ w.id? = none then some (c.next k) else none

/-- The id of a kind that a write answers with. -/
def gives (k : Kind) (c : Catalogue) (w : Write) : Option Nat :=
  if k = w.kind then (c.answer w).toOption.join else none

/-- The ids that are read off the writes of a history and the catalogue before each of them, in order. -/
def along (id : Catalogue → Write → Option Nat) (c : Catalogue) : List Write → List Nat
  | [] => []
  | w :: history => (id c w).toList ++ along id (c.write w) history

/-- The ids of a kind that a history uses up. -/
def used (c : Catalogue) (k : Kind) (history : List Write) : List Nat := along (spends k) c history

/-- The ids of a kind that the additions of a history have been answered with. -/
def returned (c : Catalogue) (k : Kind) (history : List Write) : List Nat := along (gives k) c history

theorem used_append {history' : List Write} :
    c.used k (history ++ history') = c.used k history ++ (history.foldl write c).used k history' := by
  induction history generalizing c with
  | nil => rfl
  | cons w history ih =>
    rw [used, List.cons_append, along, ← used, ih, ← List.append_assoc]
    rfl

/-- An addition answers with the id that it uses up. -/
theorem spends_eq_of_gives (h : c.gives k w = some i) : c.spends k w = some i := by
  unfold gives at h
  split at h
  · next hk =>
    obtain ⟨-, hadds, rfl⟩ := answer_eq_some_iff.mp (eq_ok_of_toOption (Option.join_eq_some_iff.mp h))
    rw [spends, if_pos ⟨hk, hadds⟩, hk]
  · cases h

/-- What is returned has been used up. -/
theorem returned_subset_used : c.returned k history ⊆ c.used k history := by
  induction history generalizing c with
  | nil => exact fun _ hi ↦ hi
  | cons w history ih =>
    intro i hi
    rcases List.mem_append.mp hi with hi | hi
    · refine List.mem_append_left _ ?_
      exact Option.mem_toList.mpr (spends_eq_of_gives (Option.mem_toList.mp hi))
    · exact List.mem_append_right _ (ih hi)

/-- Reading a snapshot uses up no ids. -/
theorem used_loading : c.used k s.loading = [] := by
  have hinserts : ∀ history : List Write, (∀ w ∈ history, w.id? ≠ none) → ∀ c : Catalogue,
      c.used k history = [] := by
    intro history
    induction history with
    | nil => exact fun _ _ ↦ rfl
    | cons w history ih =>
      intro h c
      obtain ⟨hw, h⟩ := List.forall_mem_cons.mp h
      have hspends : c.spends k w = none := if_neg fun hk ↦ hw hk.2
      rw [used, along, hspends]
      exact ih h _
  refine hinserts _ ?_ c
  simp only [Snapshot.loading, List.forall_mem_append, List.forall_mem_map]
  exact ⟨⟨fun _ _ ↦ nofun, fun _ _ ↦ nofun⟩, fun _ _ ↦ nofun⟩

/-- Reading a snapshot is a history of insertions that are not refused. -/
theorem after_loading (h : ofSnapshot s = .ok c) : after s.loading = c := by
  -- where every step succeeds, trying the steps is taking them
  have hall : ∀ {α : Type} {insert : Catalogue → α → Except Failure Catalogue} {attempt : α → Write},
      (∀ c a, c.write (attempt a) = (insert c a).toOption.getD c) → ∀ {as : List α} {c c' : Catalogue},
        as.foldlM insert c = .ok c' → (as.map attempt).foldl write c = c' := by
    intro α insert attempt hwrite as
    induction as with
    | nil => rintro c c' ⟨⟩; rfl
    | cons a as ih =>
      intro c c' h
      rw [List.foldlM_cons, bind_eq_ok_iff] at h
      obtain ⟨c₁, h₁, h⟩ := h
      rw [List.map_cons, List.foldl_cons, hwrite, h₁]
      exact ih h
  unfold ofSnapshot at h
  obtain ⟨c₁, h₁, h⟩ := bind_eq_ok_iff.mp h
  obtain ⟨c₂, h₂, h₃⟩ := bind_eq_ok_iff.mp h
  rw [after, Snapshot.loading, List.foldl_append, List.foldl_append, hall (fun _ _ ↦ rfl) h₁,
    hall (fun _ _ ↦ rfl) h₂, hall (fun _ _ ↦ rfl) h₃]

/-! ## What succeeds -/

/-- What an insertion that succeeds does to the ids: one kind has one more, which is not the last, and counts
on past it. -/
structure Puts (c c' : Catalogue) (kind : Kind) (i : Nat) : Prop where
  lt_last : i < Ids.last
  next_eq : ∀ k, c'.next k = if k = kind then max (c.next k) (i + 1) else c.next k
  stores_iff : ∀ k j, c'.Stores k j ↔ k = kind ∧ i = j ∨ c.Stores k j

theorem puts_of_insertQuantity {q : Quantity} (h : c.insertQuantity q = .ok c') : Puts c c' .quantity q.id := by
  obtain ⟨-, -, hlast, rfl⟩ := insertQuantity_eq_ok_iff.mp h
  refine ⟨hlast, ?_, ?_⟩
  · rintro (_ | _ | _) <;> rfl
  · rintro (_ | _ | _) j <;> simp [Stores]

theorem puts_of_insertConstant {a : Constant Float} (h : c.insertConstant a = .ok c') :
    Puts c c' .constant a.id := by
  obtain ⟨-, hlast, rfl⟩ := insertConstant_eq_ok_iff.mp h
  refine ⟨hlast, ?_, ?_⟩
  · rintro (_ | _ | _) <;> rfl
  · rintro (_ | _ | _) j <;> simp [Stores]

theorem puts_of_insertFormula {f : Formula} (h : c.insertFormula f = .ok c') : Puts c c' .formula f.id := by
  obtain ⟨-, -, hlast, rfl⟩ := insertFormula_eq_ok_iff.mp h
  refine ⟨hlast, ?_, ?_⟩
  · rintro (_ | _ | _) <;> rfl
  · rintro (_ | _ | _) j <;> simp [Stores]

/-- An attempt puts the entry in under the id that it brings along or takes. -/
theorem puts_of_attempt (h : c.attempt w = .ok c') :
    Puts (c.prepared w) c' w.kind (w.id?.getD (c.next w.kind)) := by
  cases w with
  | insertQuantity q => exact puts_of_insertQuantity h
  | insertConstant a => exact puts_of_insertConstant h
  | insertFormula f => exact puts_of_insertFormula h
  | addQuantity name symbol unit => exact puts_of_insertQuantity h
  | addConstant name symbol value unit => exact puts_of_insertConstant h
  | addFormula name expression quantities constants => exact puts_of_insertFormula h

/-! ## Overflows -/

/-- Counting on overflows from the last id only. -/
theorem last_le_of_countOn {next : Nat} {put : Nat → Catalogue}
    (h : (countOn next i).map put = .error .overflow) : Ids.last ≤ i := by
  by_contra hi
  rw [countOn, if_pos (not_le.mp hi)] at h
  cases h

theorem last_le_of_insertQuantity {q : Quantity} (h : c.insertQuantity q = .error .overflow) :
    Ids.last ≤ q.id := by
  unfold insertQuantity at h
  split at h
  · cases h
  · split at h
    · cases h
    · exact last_le_of_countOn h

theorem last_le_of_insertConstant {a : Constant Float} (h : c.insertConstant a = .error .overflow) :
    Ids.last ≤ a.id := by
  unfold insertConstant at h
  split at h
  · cases h
  · exact last_le_of_countOn h

theorem last_le_of_insertFormula {f : Formula} (h : c.insertFormula f = .error .overflow) :
    Ids.last ≤ f.id := by
  unfold insertFormula at h
  simp only at h
  split at h
  · cases h
  · split at h
    · cases h
    · cases h
    · split at h
      · cases h
      · exact last_le_of_countOn h

/-- Only an entry with the last id, brought along or taken, overflows. -/
theorem last_le_of_overflow (h : c.attempt w = .error .overflow) :
    Ids.last ≤ w.id?.getD (c.next w.kind) := by
  cases w with
  | insertQuantity q => exact last_le_of_insertQuantity h
  | insertConstant a => exact last_le_of_insertConstant h
  | insertFormula f => exact last_le_of_insertFormula h
  | addQuantity name symbol unit => exact last_le_of_insertQuantity h
  | addConstant name symbol value unit => exact last_le_of_insertConstant h
  | addFormula name expression quantities constants => exact last_le_of_insertFormula h

/-! ## Counting ahead -/

/-- Counting has not started over, and is ahead of the ids of a kind that are stored and of those that have
been seen. -/
structure Ahead (c : Catalogue) (k : Kind) (seen : List Nat) : Prop where
  next_le : c.next k ≤ Ids.last
  lt_of_stores : ∀ i, c.Stores k i → i < c.next k
  lt_of_mem : ∀ i ∈ seen, i < c.next k

theorem ahead_empty (k : Kind) : Ahead empty k [] where
  next_le := by cases k <;> decide
  lt_of_stores i h := by cases k <;> exact absurd h Std.TreeMap.not_mem_emptyc
  lt_of_mem := nofun

namespace Ahead

/-- Putting an entry in. -/
theorem put (h : c.Ahead k seen) (hput : Puts c c' kind i) : c'.Ahead k seen := by
  by_cases hk : k = kind
  · have hnext : c'.next k = max (c.next k) (i + 1) := by rw [hput.next_eq, if_pos hk]
    refine ⟨?_, fun j hj ↦ ?_, fun j hj ↦ ?_⟩
    · rw [hnext]
      exact max_le h.next_le hput.lt_last
    · rw [hnext]
      rcases (hput.stores_iff k j).mp hj with ⟨-, rfl⟩ | hj
      · exact lt_max_of_lt_right (Nat.lt_succ_self i)
      · exact lt_max_of_lt_left (h.lt_of_stores j hj)
    · rw [hnext]
      exact lt_max_of_lt_left (h.lt_of_mem j hj)
  · have hnext : c'.next k = c.next k := by rw [hput.next_eq, if_neg hk]
    refine ⟨hnext ▸ h.next_le, fun j hj ↦ ?_, hnext ▸ h.lt_of_mem⟩
    rw [hnext]
    exact h.lt_of_stores j (((hput.stores_iff k j).mp hj).resolve_left fun hj ↦ hk hj.1)

/-- Using up an id that is not the last. -/
theorem spend (h : c.Ahead k seen) (hlast : c.next k ≠ Ids.last) : (c.spend k).Ahead k (seen ++ [c.next k]) := by
  have hlt : c.next k < Ids.last := lt_of_le_of_ne h.next_le hlast
  have hnext : (c.spend k).next k = c.next k + 1 := by rw [next_spend, if_pos rfl, Ids.next_of_lt hlt]
  refine ⟨hnext ▸ hlt, fun j hj ↦ ?_, fun j hj ↦ ?_⟩
  · rw [hnext]
    exact Nat.lt_succ_of_lt (h.lt_of_stores j (stores_spend.mp hj))
  · rw [hnext]
    rcases List.mem_append.mp hj with hj | hj
    · exact Nat.lt_succ_of_lt (h.lt_of_mem j hj)
    · exact Nat.lt_succ_of_le (List.mem_singleton.mp hj).le

/-- Using up an id of another kind. -/
theorem spend_other (h : c.Ahead k seen) (hk : k ≠ kind) : (c.spend kind).Ahead k seen := by
  have hnext : (c.spend kind).next k = c.next k := by rw [next_spend, if_neg hk]
  refine ⟨hnext ▸ h.next_le, fun j hj ↦ ?_, hnext ▸ h.lt_of_mem⟩
  rw [hnext]
  exact h.lt_of_stores j (stores_spend.mp hj)

/-- An addition has used up its id by the time that it is known whether it is refused. -/
theorem prepared (h : c.Ahead k seen) (hlast : Ids.last ∉ c.spends k w) :
    (c.prepared w).Ahead k (seen ++ (c.spends k w).toList) := by
  unfold Catalogue.prepared
  by_cases hadds : w.id? = none
  · rw [if_pos hadds]
    by_cases hk : k = w.kind
    · have hspends : c.spends k w = some (c.next k) := if_pos ⟨hk, hadds⟩
      rw [hspends, Option.mem_some_iff] at hlast
      rw [hspends, ← hk]
      exact h.spend hlast
    · have hspends : c.spends k w = none := if_neg fun hw ↦ hk hw.1
      rw [hspends, Option.toList_none, List.append_nil]
      exact h.spend_other hk
  · have hspends : c.spends k w = none := if_neg fun hw ↦ hadds hw.2
    rw [if_neg hadds, hspends, Option.toList_none, List.append_nil]
    exact h

/-- Writing keeps counting ahead, unless it uses up the last id. -/
theorem write (h : c.Ahead k seen) (hlast : Ids.last ∉ c.spends k w) :
    (c.write w).Ahead k (seen ++ (c.spends k w).toList) := by
  have hprepared := h.prepared hlast
  rw [write_eq]
  cases hattempt : c.attempt w with
  | error e => exact hprepared
  | ok c' => exact hprepared.put (puts_of_attempt hattempt)

/-- A history keeps counting ahead as long as it does not use up the last id. -/
theorem run (h : c.Ahead k seen) (hlast : Ids.last ∉ c.used k history) :
    (history.foldl Catalogue.write c).Ahead k (seen ++ c.used k history) := by
  induction history generalizing c seen with
  | nil => rwa [used, along, List.append_nil]
  | cons w history ih =>
    have hsplit : Ids.last ∉ (c.spends k w).toList ∧ Ids.last ∉ (c.write w).used k history := by
      simpa [used, along] using hlast
    have hwrite := h.write fun hmem ↦ hsplit.1 (Option.mem_toList.mpr hmem)
    rw [used, along, ← List.append_assoc]
    exact ih hwrite hsplit.2

end Ahead

/-! ## Why additions are refused -/

/-- What is wrong with an addition, whichever id it takes: a name that is in use, or a formula that relates no
quantity or refers to something that is not there.  Nothing can be wrong with a constant. -/
def Faulty (c : Catalogue) : Write → Prop
  | .addQuantity name _ _ => ∃ q ∈ c.allQuantities, q.name = name
  | .addFormula _ _ quantities constants =>
    quantities = [] ∨ (∃ q ∈ quantities, q ∉ c.quantities) ∨ ∃ a ∈ constants, a ∉ c.constants
  | _ => False

/-- The names of a coherent catalogue are those of its quantities. -/
theorem Coherent.mem_names {name : String} (h : c.Coherent) :
    name ∈ c.names ↔ ∃ q ∈ c.allQuantities, q.name = name := by
  rw [Std.TreeMap.mem_iff_isSome_getElem?, Option.isSome_iff_exists]
  simp only [h.names_iff, h.mem_allQuantities]
  constructor
  · rintro ⟨i, q, hq, hname⟩
    exact ⟨q, h.quantity_id hq ▸ hq, hname⟩
  · rintro ⟨q, hq, hname⟩
    exact ⟨q.id, q, hq, hname⟩

/-- A formula made of lists of ids can be kept if the lists can be. -/
theorem keeps_withIds_iff {f : Formula} (hq : f.quantities = []) (hk : f.constants = [])
    (quantities : List QuantityId) (constants : List ConstantId) :
    c.Keeps (withoutRepeats ((f.withQuantities quantities).withConstants constants)) ↔
      quantities ≠ [] ∧ (∀ i ∈ quantities, i ∈ c.quantities) ∧ ∀ i ∈ constants, i ∈ c.constants := by
  rw [keeps_withoutRepeats_iff_mem]
  simp [Formula.withQuantities, Formula.withConstants, hq, hk, Ids.mem_appendNew,
    List.eq_nil_iff_forall_not_mem]

/-- While counting is ahead and not at the last id, an addition succeeds unless there is something wrong with
it. -/
theorem Ahead.exists_ok_iff (h : c.Ahead w.kind seen) (hc : c.Coherent) (hadds : w.id? = none)
    (hlt : c.next w.kind < Ids.last) : (∃ c', c.attempt w = .ok c') ↔ ¬c.Faulty w := by
  have hfree : ¬c.Stores w.kind (c.next w.kind) := fun hstores ↦ Nat.lt_irrefl _ (h.lt_of_stores _ hstores)
  cases w with
  | insertQuantity q => cases hadds
  | insertConstant a => cases hadds
  | insertFormula f => cases hadds
  | addQuantity name symbol unit =>
    have hfits : c.nextQuantity ∉ (c.spend .quantity).quantities ∧ c.nextQuantity < Ids.last := ⟨hfree, hlt⟩
    have hnames : name ∈ (c.spend .quantity).names ↔ _ := hc.mem_names
    simp only [attempt, insertQuantity_eq_ok_iff, exists_and_left, exists_eq, and_true]
    rw [and_iff_left hfits, hnames, Faulty]
  | addConstant name symbol value unit =>
    have hfits : c.nextConstant ∉ (c.spend .constant).constants ∧ c.nextConstant < Ids.last := ⟨hfree, hlt⟩
    simp only [attempt, insertConstant_eq_ok_iff, exists_and_left, exists_eq, and_true]
    exact ⟨fun _ ↦ id, fun _ ↦ hfits⟩
  | addFormula name expression quantities constants =>
    have hfits : c.nextFormula ∉ (c.spend .formula).formulas ∧ c.nextFormula < Ids.last := ⟨hfree, hlt⟩
    simp only [attempt, insertFormula_eq_ok_iff, exists_and_left, exists_eq, and_true]
    rw [keeps_withIds_iff rfl rfl]
    refine (and_iff_left hfits).trans ?_
    rw [Faulty]
    push Not
    rfl

/-! ## Numbering -/

/-- **Additions are numbered upwards.**  Read a snapshot, which may be empty, and take any history of writes
from there, refused ones among them, and an addition after it.  Unless it or an addition of the same kind before
it takes the last id, it gets an id above all that are stored and all that have been returned, it does not
overflow, and it is refused if and only if there is something wrong with it. -/
theorem additions_numbered {c₀ : Catalogue} (hread : ofSnapshot s = .ok c₀) (w : Write) (hadds : w.id? = none)
    (hlast : Ids.last ∉ c₀.used w.kind (history ++ [w])) :
    let c := history.foldl write c₀
    (∀ i, c.answer w = .ok (some i) →
      (∀ j, c.Stores w.kind j → j < i) ∧ ∀ j ∈ c₀.returned w.kind history, j < i) ∧
      c.answer w ≠ .error .overflow ∧ ((∃ e, c.answer w = .error (.refused e)) ↔ c.Faulty w) := by
  intro c
  obtain ⟨hbefore, hnow⟩ : Ids.last ∉ c₀.used w.kind history ∧ Ids.last ∉ c.used w.kind [w] := by
    rwa [used_append, List.mem_append, not_or] at hlast
  have hstart : c₀.Ahead w.kind [] := by
    have hloading : Ids.last ∉ empty.used w.kind s.loading := used_loading ▸ List.not_mem_nil
    have hrun := (ahead_empty w.kind).run hloading
    rwa [used_loading, ← after, after_loading hread] at hrun
  have hahead : c.Ahead w.kind (c₀.used w.kind history) := hstart.run hbefore
  have hcoherent : c.Coherent := by
    refine (grown_iff_exists_after.mpr ⟨s.loading ++ history, ?_⟩).coherent
    rw [after, List.foldl_append, ← after, after_loading hread]
  have hlt : c.next w.kind < Ids.last := by
    refine lt_of_le_of_ne hahead.next_le fun heq ↦ hnow ?_
    have hspends : c.spends w.kind w = some Ids.last := heq ▸ if_pos ⟨rfl, hadds⟩
    simp [used, along, hspends]
  have hreturns : c.answer w ≠ .error .overflow := fun h ↦ by
    have hle := last_le_of_overflow (answer_eq_error_iff.mp h)
    rw [hadds] at hle
    exact absurd hle (not_le.mpr hlt)
  refine ⟨fun i hi ↦ ?_, hreturns, ?_⟩
  · obtain ⟨-, -, rfl⟩ := answer_eq_some_iff.mp hi
    exact ⟨hahead.lt_of_stores, fun j hj ↦ hahead.lt_of_mem j (returned_subset_used hj)⟩
  · rw [refused_iff hreturns, hahead.exists_ok_iff hcoherent hadds hlt, not_not]

/-- Additions, one of them refused, and an insertion of an id further on. -/
def mixture : List Write :=
  [.addQuantity "speed" "v" "m/s", .addQuantity "time" "T" "s",
    .insertQuantity { id := 9, name := "mass", symbol := "m", unit := "kg" }]

/-- The next quantity after them comes after the one that was inserted. -/
theorem additions_numbered_mixture :
    ∃ c₀, ofSnapshot unsorted = .ok c₀ ∧ c₀.returned .quantity mixture = [6] ∧
      c₀.used .quantity (mixture ++ [.addQuantity "force" "F" "N"]) = [6, 7, 10] ∧
      (mixture.foldl write c₀).answer (.addQuantity "force" "F" "N") = .ok (some 10) ∧
      ∀ j, (mixture.foldl write c₀).Stores .quantity j → j < 10 := by
  have hread : ofSnapshot unsorted = .ok (filled unsorted) := by rfl
  have hused : (filled unsorted).used .quantity (mixture ++ [.addQuantity "force" "F" "N"]) = [6, 7, 10] := by
    decide
  have hlast : Ids.last ∉ (filled unsorted).used .quantity (mixture ++ [.addQuantity "force" "F" "N"]) := by
    rw [hused]
    decide
  have hanswer : (mixture.foldl write (filled unsorted)).answer (.addQuantity "force" "F" "N") =
      .ok (some 10) := by
    rfl
  have hnumbered := additions_numbered hread (.addQuantity "force" "F" "N") rfl hlast
  exact ⟨_, hread, by decide, hused, hanswer, (hnumbered.1 10 hanswer).1⟩

/-- A quantity whose id is the one before the last. -/
def penultimate : Write :=
  .insertQuantity { id := Ids.last - 1, name := "pressure", symbol := "p", unit := "Pa" }

/-- After it, an addition takes the last id.  One that is refused for its name lets counting start over, and the
next quantity gets an id below the one that is stored; one with nothing wrong overflows. -/
theorem addQuantity_after_penultimate :
    (after [penultimate, .addQuantity "pressure" "P" "Pa"]).Stores .quantity (Ids.last - 1) ∧
      (after [penultimate, .addQuantity "pressure" "P" "Pa"]).answer (.addQuantity "force" "F" "N") =
        .ok (some 0) ∧
      ¬(after [penultimate]).Faulty (.addQuantity "force" "F" "N") ∧
      (after [penultimate]).answer (.addQuantity "force" "F" "N") = .error .overflow := by
  refine ⟨?_, by rfl, ?_, by rfl⟩
  · exact Std.TreeMap.mem_iff_contains.mpr (by decide)
  · change ¬∃ q ∈ (after [penultimate]).allQuantities, q.name = "force"
    decide

end Catalogue

end FormulaNet

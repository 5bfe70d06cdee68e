import FormulaNet.Derivation.Distance
import FormulaNet.Proofs.Knowledge.Tables
import Mathlib.Data.Nat.Find
import Mathlib.Order.Bounds.Defs
import Mathlib.Tactic.Common

/-!
# The table of distances is right

A way leads from quantity to quantity, each related to the next one by some formula, and two quantities are
as far apart as the shortest way between them is long.  The rows of the table are filled in rounds, the
quantities at the same distance together: `Filled` states what is there before a round.  No round is missing
at the end, since every round but the last enters a quantity of the graph that had no distance yet.
-/

namespace FormulaNet

variable {formulas : List Formula} {a b c : QuantityId} {k n : Nat}

/-- Some formula relates the two. -/
def Related (formulas : List Formula) (a b : QuantityId) : Prop :=
  ∃ f ∈ formulas, a ∈ f.quantities ∧ b ∈ f.quantities

/-- There is a way of so many hops. -/
inductive Way (formulas : List Formula) (a : QuantityId) : QuantityId → Nat → Prop
  | nil : Way formulas a a 0
  | hop {b c : QuantityId} {n : Nat} :
      Way formulas a b n → Related formulas b c → Way formulas a c (n + 1)

/-- The shortest way has so many hops. -/
def Apart (formulas : List Formula) (a b : QuantityId) (n : Nat) : Prop :=
  IsLeast {n | Way formulas a b n} n

/-! ## Ways -/

theorem Related.symm (h : Related formulas a b) : Related formulas b a := by
  obtain ⟨f, hf, ha, hb⟩ := h
  exact ⟨f, hf, hb, ha⟩

namespace Way

/-- A hop before the way. -/
theorem after (h : Way formulas b c n) (hab : Related formulas a b) : Way formulas a c (n + 1) := by
  induction h with
  | nil => exact .hop .nil hab
  | hop _ hbc ih => exact .hop ih hbc

theorem symm (h : Way formulas a b n) : Way formulas b a n := by
  induction h with
  | nil => exact .nil
  | hop _ hbc ih => exact ih.after hbc.symm

/-- Where there is a way, there is a shortest one. -/
theorem exists_apart (h : Way formulas a b n) : ∃ m ≤ n, Apart formulas a b m := by
  classical
  refine ⟨Nat.find ⟨n, h⟩, Nat.find_min' _ h, Nat.find_spec (p := Way formulas a b) ⟨n, h⟩, ?_⟩
  intro m hm
  exact Nat.find_min' _ hm

end Way

namespace Apart

theorem unique (hk : Apart formulas a b k) (hn : Apart formulas a b n) : k = n :=
  Nat.le_antisymm (hk.2 hn.1) (hn.2 hk.1)

theorem symm (h : Apart formulas a b n) : Apart formulas b a n :=
  ⟨h.1.symm, fun _ hm ↦ h.2 (Way.symm hm)⟩

theorem self (a : QuantityId) : Apart formulas a a 0 := ⟨.nil, fun _ _ ↦ Nat.zero_le _⟩

theorem eq_of_zero (h : Apart formulas a b 0) : a = b := by
  cases h.1
  rfl

/-- A shortest way passes, one hop before its end, a quantity that is one hop less apart. -/
theorem exists_before (h : Apart formulas a c (k + 1)) :
    ∃ b, Apart formulas a b k ∧ Related formulas b c := by
  obtain ⟨hway, hleast⟩ := h
  cases hway with
  | @hop b _ _ hab hbc =>
    refine ⟨b, ⟨hab, fun m hm ↦ ?_⟩, hbc⟩
    have := hleast (Way.hop hm hbc)
    omega

end Apart

namespace DistanceTable

variable {quantities : List Quantity} {ns : Neighbours} {found found' : Std.TreeMap QuantityId Nat}
variable {last ids new : List QuantityId}

/-! ## Neighbours -/

theorem mem_addFormula {f : Formula} :
    b ∈ (addFormula ns f).getD a [] ↔
      (a ∈ f.quantities ∧ b ∈ f.quantities ∧ b ≠ a) ∨ b ∈ ns.getD a [] := by
  have fold : ∀ as : List QuantityId, b ∈ (as.foldl (fun ns a ↦
      ns.insert a (f.quantities.filter (· ≠ a) ++ ns.getD a [])) ns).getD a [] ↔
        (a ∈ as ∧ b ∈ f.quantities ∧ b ≠ a) ∨ b ∈ ns.getD a [] := by
    intro as
    induction as generalizing ns with
    | nil => simp
    | cons c as ih =>
        rw [List.foldl_cons, ih]
        by_cases hc : c = a
        · subst hc
          simp only [Std.TreeMap.getD_insert_self, List.mem_append, List.mem_filter, decide_eq_true_eq,
            List.mem_cons]
          tauto
        · simp [Std.TreeMap.getD_insert, hc, Ne.symm hc]
  exact fold f.quantities

theorem mem_addFormula_iff {f : Formula} : a ∈ addFormula ns f ↔ a ∈ f.quantities ∨ a ∈ ns := by
  have fold : ∀ as : List QuantityId, a ∈ as.foldl (fun ns a ↦
      ns.insert a (f.quantities.filter (· ≠ a) ++ ns.getD a [])) ns ↔ a ∈ as ∨ a ∈ ns := by
    intro as
    induction as generalizing ns with
    | nil => simp
    | cons c as ih =>
        rw [List.foldl_cons, ih, Std.TreeMap.mem_insert, Nat.compare_eq_eq, List.mem_cons, @eq_comm _ c]
        tauto
  exact fold f.quantities

/-- The quantities of the graph: those that are listed, and those that formulas relate. -/
theorem mem_neighbours_iff :
    a ∈ neighbours quantities formulas ↔
      (∃ q ∈ quantities, q.id = a) ∨ ∃ f ∈ formulas, a ∈ f.quantities := by
  have hlisted : ∀ (qs : List Quantity) (ns : Neighbours),
      a ∈ qs.foldl (fun ns q ↦ ns.insert q.id []) ns ↔ (∃ q ∈ qs, q.id = a) ∨ a ∈ ns := by
    intro qs
    induction qs with
    | nil => simp
    | cons q qs ih =>
        intro ns
        rw [List.foldl_cons, ih, Std.TreeMap.mem_insert, Nat.compare_eq_eq, List.exists_mem_cons_iff,
          or_assoc, or_left_comm]
  have hrelated : ∀ (fs : List Formula) (ns : Neighbours),
      a ∈ fs.foldl addFormula ns ↔ a ∈ ns ∨ ∃ f ∈ fs, a ∈ f.quantities := by
    intro fs
    induction fs with
    | nil => simp
    | cons f fs ih =>
        intro ns
        rw [List.foldl_cons, ih, mem_addFormula_iff, List.exists_mem_cons_iff]
        tauto
  rw [neighbours, hrelated, hlisted]
  simp

/-- Neighbours are the other quantities that some formula relates to one. -/
theorem mem_neighbours :
    b ∈ (neighbours quantities formulas).getD a [] ↔ b ≠ a ∧ Related formulas a b := by
  have hlisted : ∀ (qs : List Quantity) (ns : Neighbours), ns.getD a [] = [] →
      (qs.foldl (fun ns q ↦ ns.insert q.id []) ns).getD a [] = [] := by
    intro qs
    induction qs with
    | nil => exact fun ns h ↦ h
    | cons q qs ih =>
        intro ns h
        refine ih _ ?_
        rw [Std.TreeMap.getD_insert, h, ite_self]
  have hrelated : ∀ (fs : List Formula) (ns : Neighbours),
      b ∈ (fs.foldl addFormula ns).getD a [] ↔ b ∈ ns.getD a [] ∨ b ≠ a ∧ Related fs a b := by
    intro fs
    induction fs with
    | nil => simp [Related]
    | cons f fs ih =>
        intro ns
        rw [List.foldl_cons, ih, mem_addFormula, Related, Related, List.exists_mem_cons_iff]
        tauto
  rw [neighbours, hrelated, hlisted]
  · simp
  · simp

/-! ## Rounds -/

/-- What a table holds once the candidates without a distance have been entered. -/
theorem getElem?_enter (h : enter k ids found = (found', new)) :
    found'[b]? = if b ∈ found then found[b]? else if b ∈ ids then some k else none := by
  induction ids generalizing found new with
  | nil =>
      obtain ⟨rfl, -⟩ := Prod.mk.inj h
      by_cases hb : b ∈ found
      · rw [if_pos hb]
      · rw [if_neg hb, if_neg List.not_mem_nil, Std.TreeMap.getElem?_eq_none hb]
  | cons c ids ih =>
      unfold enter at h
      split at h
      · next hc =>
        rw [ih h]
        by_cases hb : b ∈ found
        · rw [if_pos hb, if_pos hb]
        · have hbc : b ≠ c := fun hbc ↦ hb (hbc ▸ hc)
          simp [hb, hbc]
      · next hc =>
        cases he : enter k ids (found.insert c k) with
        | mk found'' new =>
        obtain ⟨rfl, -⟩ := Prod.mk.inj (he ▸ h)
        rw [ih he]
        by_cases hbc : c = b
        · subst hbc
          simp [hc]
        · simp [Std.TreeMap.getElem?_insert, Std.TreeMap.mem_insert, hbc, Ne.symm hbc]

/-- The candidates entered are those without a distance. -/
theorem mem_enter (h : enter k ids found = (found', new)) : b ∈ new ↔ b ∈ ids ∧ b ∉ found := by
  induction ids generalizing found new with
  | nil =>
      obtain ⟨-, rfl⟩ := Prod.mk.inj h
      simp
  | cons c ids ih =>
      unfold enter at h
      split at h
      · next hc =>
        rw [ih h, List.mem_cons]
        grind
      · next hc =>
        cases he : enter k ids (found.insert c k) with
        | mk found'' new =>
        obtain ⟨rfl, rfl⟩ := Prod.mk.inj (he ▸ h)
        rw [List.mem_cons, List.mem_cons, ih he, Std.TreeMap.mem_insert, Nat.compare_eq_eq]
        grind

theorem size_enter (h : enter k ids found = (found', new)) : found'.size = found.size + new.length := by
  induction ids generalizing found new with
  | nil =>
      obtain ⟨rfl, rfl⟩ := Prod.mk.inj h
      rfl
  | cons c ids ih =>
      unfold enter at h
      split at h
      · exact ih h
      · next hc =>
        cases he : enter k ids (found.insert c k) with
        | mk found'' new =>
        obtain ⟨rfl, rfl⟩ := Prod.mk.inj (he ▸ h)
        rw [ih he, Std.TreeMap.size_insert, if_neg (mt Std.TreeMap.mem_iff_contains.mpr hc), List.length_cons]
        omega

/-- A round that enters anything makes the table larger. -/
theorem size_lt_of_enter (h : enter k ids found = (found', new)) (hnew : new ≠ []) :
    found.size < found'.size := by
  rw [size_enter h]
  exact Nat.lt_add_of_pos_right (List.length_pos_iff.mpr hnew)

/-- What is there before a round: the distances from `a` up to `k` hops, the quantities at that distance
once more, and nothing outside the graph. -/
structure Filled (ns : Neighbours) (formulas : List Formula) (a : QuantityId) (k : Nat)
    (last : List QuantityId) (found : Std.TreeMap QuantityId Nat) : Prop where
  found_iff : ∀ b n, found[b]? = some n ↔ Apart formulas a b n ∧ n ≤ k
  last_iff : ∀ b, b ∈ last ↔ Apart formulas a b k
  vertices : ∀ b ∈ found, b ∈ ns

/-- There are as many rounds as quantities in the graph, and the first quantity has been entered before. -/
theorem size_lt_start (ns : Neighbours) (a : QuantityId) :
    ns.size < ns.size + ((∅ : Std.TreeMap QuantityId Nat).insert a 0).size := by
  rw [Std.TreeMap.size_insert]
  simp

/-- Before the first round only the distance of the quantity from itself is there. -/
theorem filled_start (ha : a ∈ ns) :
    Filled ns formulas a 0 [a] ((∅ : Std.TreeMap QuantityId Nat).insert a 0) where
  found_iff b n := by
    rw [Std.TreeMap.getElem?_insert]
    by_cases hab : a = b
    · subst hab
      simp only [Nat.compare_eq_eq, ↓reduceIte, Option.some.injEq]
      constructor
      · rintro rfl
        exact ⟨.self a, Nat.le_refl 0⟩
      · rintro ⟨-, hn⟩
        omega
    · simp only [Nat.compare_eq_eq, hab, ↓reduceIte, Std.TreeMap.getElem?_emptyc, reduceCtorEq, false_iff,
        not_and]
      intro h hn
      obtain rfl : n = 0 := by omega
      exact hab h.eq_of_zero
  last_iff b := by
    rw [List.mem_singleton]
    constructor
    · rintro rfl
      exact .self b
    · exact fun h ↦ h.eq_of_zero.symm
  vertices b hb := by
    rw [Std.TreeMap.mem_insert, Nat.compare_eq_eq] at hb
    rcases hb with rfl | hb
    · exact ha
    · exact absurd hb Std.TreeMap.not_mem_emptyc

/-- The neighbours of a graph with these formulas. -/
structure Neighbours.Of (ns : Neighbours) (formulas : List Formula) : Prop where
  adjacent : ∀ a b, b ∈ ns.getD a [] ↔ b ≠ a ∧ Related formulas a b
  vertices : ∀ a b, Related formulas a b → b ∈ ns

namespace Filled

variable (hns : ns.Of formulas) (h : Filled ns formulas a k last found)

include h in
/-- What has a distance already is no farther than the rounds have got. -/
theorem mem_iff : b ∈ found ↔ ∃ n ≤ k, Apart formulas a b n := by
  rw [Std.TreeMap.mem_iff_isSome_getElem?, Option.isSome_iff_exists]
  constructor
  · rintro ⟨n, hn⟩
    obtain ⟨hn, hk⟩ := (h.found_iff b n).mp hn
    exact ⟨n, hk, hn⟩
  · rintro ⟨n, hk, hn⟩
    exact ⟨n, (h.found_iff b n).mpr ⟨hn, hk⟩⟩

include hns h in
/-- A round enters the quantities that are one hop farther. -/
theorem mem_new_iff :
    (b ∈ last.flatMap (ns.getD · []) ∧ b ∉ found) ↔ Apart formulas a b (k + 1) := by
  rw [h.mem_iff, List.mem_flatMap]
  constructor
  · rintro ⟨⟨c, hc, hcb⟩, hfar⟩
    have hway : Way formulas a b (k + 1) :=
      .hop ((h.last_iff c).mp hc).1 ((hns.adjacent c b).mp hcb).2
    obtain ⟨m, hm, hapart⟩ := hway.exists_apart
    rcases Nat.lt_or_eq_of_le hm with hm | rfl
    · exact absurd ⟨m, Nat.le_of_lt_succ hm, hapart⟩ hfar
    · exact hapart
  · intro hapart
    obtain ⟨c, hc, hcb⟩ := hapart.exists_before
    refine ⟨⟨c, (h.last_iff c).mpr hc, (hns.adjacent c b).mpr ⟨?_, hcb⟩⟩, ?_⟩
    · rintro rfl
      exact absurd (hapart.unique hc) (by omega)
    · rintro ⟨n, hn, hapart'⟩
      have := hapart.unique hapart'
      omega

include hns h in
/-- A round goes one hop farther. -/
theorem enter (he : enter (k + 1) (last.flatMap (ns.getD · [])) found = (found', new)) :
    Filled ns formulas a (k + 1) new found' where
  found_iff b n := by
    rw [getElem?_enter he]
    by_cases hb : b ∈ found
    · rw [if_pos hb, h.found_iff]
      obtain ⟨m, hm, hapart⟩ := h.mem_iff.mp hb
      constructor
      · exact fun ⟨hn, hk⟩ ↦ ⟨hn, by omega⟩
      · exact fun ⟨hn, _⟩ ↦ ⟨hn, hn.unique hapart ▸ hm⟩
    · rw [if_neg hb]
      have hnew := h.mem_new_iff hns (b := b)
      have hfar : ∀ m, Apart formulas a b m → k < m := by
        intro m hm
        by_contra hk
        exact hb (h.mem_iff.mpr ⟨m, by omega, hm⟩)
      constructor
      · intro hn
        split at hn
        · next hlast =>
          obtain rfl := Option.some.inj hn
          exact ⟨hnew.mp ⟨hlast, hb⟩, Nat.le_refl _⟩
        · cases hn
      · rintro ⟨hn, hk⟩
        obtain rfl : n = k + 1 := by
          have := hfar n hn
          omega
        rw [if_pos (hnew.mpr hn).1]
  last_iff b := by rw [mem_enter he, h.mem_new_iff hns]
  vertices b hb := by
    obtain ⟨n, hn⟩ := Table.exists_of_mem hb
    rw [getElem?_enter he] at hn
    split at hn
    · next hb => exact h.vertices b hb
    · split at hn
      · next hlast =>
        obtain ⟨c, -, hcb⟩ := List.mem_flatMap.mp hlast
        exact hns.vertices c b ((hns.adjacent c b).mp hcb).2
      · cases hn

include h in
/-- Where a round enters nothing all distances are there. -/
theorem complete (hlast : ∀ b, ¬ Apart formulas a b (k + 1)) :
    found[b]? = some n ↔ Apart formulas a b n := by
  -- a quantity farther off would have another before it on its way
  have hnear : ∀ m b, Apart formulas a b m → m ≤ k := by
    intro m
    induction m with
    | zero => exact fun _ _ ↦ Nat.zero_le k
    | succ m ih =>
        intro b hb
        obtain ⟨c, hc, -⟩ := hb.exists_before
        rcases Nat.lt_or_eq_of_le (ih c hc) with hm | rfl
        · exact hm
        · exact absurd hb (hlast b)
  rw [h.found_iff]
  exact ⟨fun h ↦ h.1, fun h ↦ ⟨h, hnear n b h⟩⟩

include hns h in
/-- The rounds fill in all distances, if there are enough of them for every quantity of the graph. -/
theorem getElem?_rounds {fuel : Nat} (hfuel : ns.size < fuel + found.size) :
    (rounds ns fuel k last found)[b]? = some n ↔ Apart formulas a b n := by
  induction fuel generalizing k last found with
  | zero =>
      have := Table.size_le_size h.vertices
      omega
  | succ fuel ih =>
      unfold rounds
      split
      · next found' he =>
        have hfilled := h.enter hns he
        refine hfilled.complete fun b hb ↦ ?_
        obtain ⟨c, hc, -⟩ := hb.exists_before
        exact List.not_mem_nil ((hfilled.last_iff c).mpr hc)
      · next found' new hne he =>
        refine ih (h.enter hns he) ?_
        have := size_lt_of_enter he hne
        omega

end Filled

/-! ## The table -/

theorem neighbours_of : (neighbours quantities formulas).Of formulas where
  adjacent _ _ := mem_neighbours
  vertices _ _ := by
    rintro ⟨f, hf, -, hb⟩
    exact mem_neighbours_iff.mpr (.inr ⟨f, hf, hb⟩)

theorem getElem?_row (hns : ns.Of formulas) (ha : a ∈ ns) :
    (row ns a)[b]? = some n ↔ Apart formulas a b n :=
  (filled_start ha).getElem?_rounds hns (size_lt_start ns a)

/-- **The table of distances is right**: two quantities of the graph have the length of the shortest way
between them as their distance, and others have none. -/
theorem distance_build :
    (build quantities formulas).distance a b = .hops n ↔
      a ∈ neighbours quantities formulas ∧ Apart formulas a b n := by
  have hrow : (build quantities formulas).rows[a]? =
      if a ∈ neighbours quantities formulas then some (row (neighbours quantities formulas) a) else none := by
    simp [build, Table.getElem?_foldl_insert]
  by_cases ha : a ∈ neighbours quantities formulas
  · rw [distance, hrow, if_pos ha, Option.bind_some, ← getElem?_row neighbours_of ha]
    cases (row (neighbours quantities formulas) a)[b]? <;> simp [ha]
  · rw [distance, hrow, if_neg ha]
    simp [ha]

end DistanceTable

end FormulaNet

import Mathlib.Data.Finset.Card
import Mathlib.Data.Finset.Dedup
import Std.Data.TreeMap

/-!
# Tables that are filled entry by entry

What a table with natural numbers as keys holds after a list of entries, and how large it can get.  Most
tables keep each entry under a key that the entry itself carries; the values of such a table are the entries
by ascending key, and filling it from a list sorts the list.
-/

namespace FormulaNet.Table

variable {α : Type} {q : Nat}

/-- What a table holds once a value has been entered for every key of a list. -/
theorem getElem?_foldl_insert (value : Nat → α) (keys : List Nat) (table : Std.TreeMap Nat α) :
    (keys.foldl (fun table i ↦ table.insert i (value i)) table)[q]? =
      if q ∈ keys then some (value q) else table[q]? := by
  induction keys generalizing table with
  | nil => simp
  | cons i keys ih =>
      rw [List.foldl_cons, ih]
      by_cases hq : q ∈ keys
      · simp [hq]
      · by_cases hi : i = q
        · simp [hi]
        · simp [Std.TreeMap.getElem?_insert, hq, hi, Ne.symm hi]

/-- A key has an entry. -/
theorem exists_of_mem {table : Std.TreeMap Nat α} (h : q ∈ table) : ∃ a, table[q]? = some a :=
  Option.isSome_iff_exists.mp (Std.TreeMap.mem_iff_isSome_getElem?.mp h)

/-- What is true of a new key and of the keys of a table is true of the keys with the new one. -/
theorem forall_mem_insert {table : Std.TreeMap Nat α} {i : Nat} {a : α} {P : Nat → Prop} (hi : P i)
    (h : ∀ j, j ∈ table → P j) (j : Nat) (hj : j ∈ table.insert i a) : P j := by
  rcases Std.TreeMap.mem_insert.mp hj with heq | hj
  · exact Nat.compare_eq_eq.mp heq ▸ hi
  · exact h j hj

/-- What has an entry is a key. -/
theorem mem_of_eq_some {table : Std.TreeMap Nat α} {a : α} (h : table[q]? = some a) : q ∈ table :=
  Std.TreeMap.mem_iff_isSome_getElem?.mpr (by rw [h]; rfl)

theorem nodup_keys (table : Std.TreeMap Nat α) : table.keys.Nodup := by
  have h := Std.TreeMap.distinct_keys (t := table)
  refine h.imp fun {a b} hab heq ↦ hab ?_
  rw [heq]
  exact Nat.compare_eq_eq.mpr rfl

/-- A table is no larger than one that has all its keys. -/
theorem size_le_size {β : Type} {small : Std.TreeMap Nat α} {large : Std.TreeMap Nat β}
    (h : ∀ q ∈ small, q ∈ large) : small.size ≤ large.size := by
  rw [← Std.TreeMap.length_keys, ← Std.TreeMap.length_keys,
    ← List.toFinset_card_of_nodup (nodup_keys small), ← List.toFinset_card_of_nodup (nodup_keys large)]
  refine Finset.card_le_card fun q hq ↦ ?_
  rw [List.mem_toFinset, Std.TreeMap.mem_keys] at hq ⊢
  exact h q hq

/-! ## Entries under their own keys -/

/-- The values of a table, by ascending key. -/
theorem values_eq_map_toList (table : Std.TreeMap Nat α) : table.values = table.toList.map Prod.snd := by
  change table.foldr (fun _ a as ↦ a :: as) [] = _
  rw [Std.TreeMap.foldr_eq_foldr_toList, List.map_eq_foldr]

theorem length_values (table : Std.TreeMap Nat α) : table.values.length = table.size := by
  rw [values_eq_map_toList, List.length_map, Std.TreeMap.length_toList]

/-- Two lists in the same strict order that have the same members are the same. -/
theorem eq_of_pairwise {r : α → α → Prop} {as bs : List α} (asymm : ∀ {a b}, r a b → ¬ r b a)
    (has : as.Pairwise r) (hbs : bs.Pairwise r) (h : ∀ a, a ∈ as ↔ a ∈ bs) : as = bs := by
  have nodup : ∀ {cs : List α}, cs.Pairwise r → cs.Nodup := by
    intro cs hcs
    refine hcs.imp fun {a b} hab heq ↦ ?_
    rw [heq] at hab
    exact asymm hab hab
  have hperm := (List.perm_ext_iff_of_nodup (nodup has) (nodup hbs)).mpr h
  exact hperm.eq_of_pairwise (fun a b _ _ hab hba ↦ absurd hba (asymm hab)) has hbs

/-- Two lists that ascend by their keys and have the same members are the same. -/
theorem eq_of_ascending {key : α → Nat} {as bs : List α} (has : as.Pairwise (key · < key ·))
    (hbs : bs.Pairwise (key · < key ·)) (h : ∀ a, a ∈ as ↔ a ∈ bs) : as = bs :=
  eq_of_pairwise Nat.lt_asymm has hbs h

/-- Sorting a list without repeated keys makes it ascend. -/
theorem ascending_mergeSort {key : α → Nat} {as : List α} (h : (as.map key).Nodup) :
    (as.mergeSort (key · ≤ key ·)).Pairwise (key · < key ·) := by
  have hsorted : (as.mergeSort (key · ≤ key ·)).Pairwise fun a b ↦ decide (key a ≤ key b) = true :=
    List.pairwise_mergeSort (by grind) (by grind) as
  have hdistinct : (as.mergeSort (key · ≤ key ·)).Pairwise (key · ≠ key ·) :=
    List.pairwise_map.mp ((List.mergeSort_perm as _).map key |>.nodup_iff.mpr h)
  exact hsorted.imp₂ (fun _ _ hle hne ↦ Nat.lt_of_le_of_ne (of_decide_eq_true hle) hne) hdistinct

/-- A list that ascends is sorted already. -/
theorem mergeSort_eq_self {key : α → Nat} {as : List α} (h : as.Pairwise (key · < key ·)) :
    as.mergeSort (key · ≤ key ·) = as :=
  List.mergeSort_of_pairwise (h.imp fun hab ↦ decide_eq_true (Nat.le_of_lt hab))

section Keyed

variable {key : α → Nat} {table : Std.TreeMap Nat α} (hkey : ∀ {i a}, table[i]? = some a → key a = i)

include hkey

theorem mem_values {a : α} : a ∈ table.values ↔ table[key a]? = some a := by
  rw [values_eq_map_toList, List.mem_map]
  constructor
  · rintro ⟨⟨i, b⟩, hb, rfl⟩
    rw [Std.TreeMap.mem_toList_iff_getElem?_eq_some] at hb
    rwa [hkey hb]
  · intro ha
    exact ⟨(key a, a), Std.TreeMap.mem_toList_iff_getElem?_eq_some.mpr ha, rfl⟩

theorem getElem?_eq_some_iff {a : α} : table[q]? = some a ↔ a ∈ table.values ∧ key a = q := by
  rw [mem_values hkey]
  constructor
  · intro ha
    have hq := hkey ha
    exact ⟨by rwa [hq], hq⟩
  · rintro ⟨ha, rfl⟩
    exact ha

theorem ascending_values : table.values.Pairwise (key · < key ·) := by
  rw [values_eq_map_toList, List.pairwise_map]
  refine List.Pairwise.imp_of_mem (fun {a b} ha hb hab ↦ ?_) Std.TreeMap.ordered_keys_toList
  rw [hkey (Std.TreeMap.mem_toList_iff_getElem?_eq_some.mp ha),
    hkey (Std.TreeMap.mem_toList_iff_getElem?_eq_some.mp hb)]
  exact Nat.compare_eq_lt.mp hab

end Keyed

/-- The keys of a table are those of what has been entered. -/
theorem mem_foldl_insert_key {key : α → Nat} {as : List α} :
    q ∈ as.foldl (fun table a ↦ table.insert (key a) a) (∅ : Std.TreeMap Nat α) ↔ ∃ a ∈ as, key a = q := by
  have fold : ∀ (as : List α) (table : Std.TreeMap Nat α),
      q ∈ as.foldl (fun table a ↦ table.insert (key a) a) table ↔ (∃ a ∈ as, key a = q) ∨ q ∈ table := by
    intro as
    induction as with
    | nil => simp
    | cons b as ih =>
        intro table
        rw [List.foldl_cons, ih, Std.TreeMap.mem_insert, Nat.compare_eq_eq, List.exists_mem_cons_iff,
          or_assoc, or_left_comm]
  simpa using fold as ∅

/-- What a table holds once all of a list has been entered. -/
theorem getElem?_foldl_insert_key {key : α → Nat} {as : List α} {a : α} (h : (as.map key).Nodup) :
    (as.foldl (fun table a ↦ table.insert (key a) a) (∅ : Std.TreeMap Nat α))[q]? = some a ↔
      a ∈ as ∧ key a = q := by
  -- entries that are there before stay unless their key is on the list
  have fold : ∀ (as : List α) (table : Std.TreeMap Nat α), (as.map key).Nodup →
      ((as.foldl (fun table a ↦ table.insert (key a) a) table)[q]? = some a ↔
        (a ∈ as ∧ key a = q) ∨ (q ∉ as.map key ∧ table[q]? = some a)) := by
    intro as
    induction as with
    | nil => simp
    | cons b as ih =>
        intro table hnodup
        rw [List.map_cons, List.nodup_cons] at hnodup
        rw [List.foldl_cons, ih _ hnodup.2]
        by_cases hb : key b = q
        · subst hb
          have hout : ∀ c ∈ as, key c ≠ key b := fun c hc heq ↦
            hnodup.1 (List.mem_map.mpr ⟨c, hc, heq⟩)
          simp only [Std.TreeMap.getElem?_insert_self, Option.some.injEq, List.mem_cons, List.map_cons]
          grind
        · simp only [Std.TreeMap.getElem?_insert, Nat.compare_eq_eq, hb, ↓reduceIte, List.mem_cons,
            List.map_cons]
          grind
  simpa using fold as ∅ h

/-- Filling a table from a list sorts the list. -/
theorem values_foldl_insert_key {key : α → Nat} {as : List α} (h : (as.map key).Nodup) :
    (as.foldl (fun table a ↦ table.insert (key a) a) (∅ : Std.TreeMap Nat α)).values =
      as.mergeSort (key · ≤ key ·) := by
  have hkey : ∀ {i a}, (as.foldl (fun table a ↦ table.insert (key a) a)
      (∅ : Std.TreeMap Nat α))[i]? = some a → key a = i := fun ha ↦
    ((getElem?_foldl_insert_key h).mp ha).2
  refine eq_of_ascending (ascending_values hkey) (ascending_mergeSort h) fun a ↦ ?_
  rw [mem_values hkey, getElem?_foldl_insert_key h, List.mem_mergeSort]
  exact and_iff_left rfl

end FormulaNet.Table

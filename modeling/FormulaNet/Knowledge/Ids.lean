/-!
# Lists of ids

Ids are kept in lists of three kinds: in the order in which they were given, each once; ascending, each
once; and as they come.  An id has 64 bits, so there is a greatest one; an atomic counter starts over after
it, a sum overflows.
-/

namespace FormulaNet.Ids

/-- The greatest id. -/
def last : Nat := UInt64.size - 1

/-- The id that an atomic counter goes on to. -/
def next (id : Nat) : Nat := (id + 1) % UInt64.size

/-- Appends the ids that are not there yet, each once. -/
def appendNew (ids new : List Nat) : List Nat :=
  new.foldl (fun ids id => if id ∈ ids then ids else ids ++ [id]) ids

/-- Puts an id into an ascending list, unless it is there already. -/
def insert (id : Nat) : List Nat → List Nat
  | [] => [id]
  | a :: rest => if id < a then id :: a :: rest else if id = a then a :: rest else a :: insert id rest

/-- The ids of a list in ascending order, each once. -/
def ascending (ids : List Nat) : List Nat := ids.foldr insert []

theorem next_of_lt {id : Nat} (h : id < last) : next id = id + 1 :=
  Nat.mod_eq_of_lt (Nat.add_lt_of_lt_sub h)

@[simp] theorem appendNew_nil (ids : List Nat) : appendNew ids [] = ids := rfl

@[simp] theorem appendNew_cons (ids new : List Nat) (id : Nat) :
    appendNew ids (id :: new) = appendNew (if id ∈ ids then ids else ids ++ [id]) new := rfl

theorem mem_appendNew {a : Nat} {ids new : List Nat} :
    a ∈ appendNew ids new ↔ a ∈ ids ∨ a ∈ new := by
  induction new generalizing ids with
  | nil => simp
  | cons b new ih =>
    rw [appendNew_cons, ih]
    by_cases h : b ∈ ids <;> by_cases hb : a = b <;> simp_all

@[simp] theorem mem_insert {a id : Nat} {ids : List Nat} : a ∈ insert id ids ↔ a = id ∨ a ∈ ids := by
  induction ids with
  | nil => simp [insert]
  | cons b ids ih =>
    rw [insert]
    split
    · simp
    · split
      · simp_all
      · simp [ih, or_left_comm]

theorem pairwise_insert {id : Nat} {ids : List Nat} (h : ids.Pairwise (· < ·)) :
    (insert id ids).Pairwise (· < ·) := by
  induction ids with
  | nil => simp [insert]
  | cons b ids ih =>
    rw [insert]
    have hb := List.pairwise_cons.1 h
    split
    · refine List.pairwise_cons.2 ⟨fun a ha => ?_, h⟩
      rcases List.mem_cons.1 ha with rfl | ha
      · assumption
      · have := hb.1 a ha; omega
    · split
      · exact h
      · refine List.pairwise_cons.2 ⟨fun a ha => ?_, ih hb.2⟩
        rcases mem_insert.1 ha with rfl | ha
        · omega
        · exact hb.1 a ha

@[simp] theorem mem_ascending {a : Nat} {ids : List Nat} : a ∈ ascending ids ↔ a ∈ ids := by
  induction ids with
  | nil => simp [ascending]
  | cons b ids ih => simp_all [ascending]

theorem pairwise_ascending (ids : List Nat) : (ascending ids).Pairwise (· < ·) := by
  induction ids with
  | nil => simp [ascending]
  | cons b ids ih => exact pairwise_insert ih

end FormulaNet.Ids

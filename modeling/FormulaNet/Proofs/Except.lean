import Mathlib.Data.List.Forall2

/-!
# Computations that may fail

Inversion of sequences of steps in `Except`: a sequence succeeds if every step does.  Rewording the errors
commutes with the steps.
-/

namespace FormulaNet

variable {ε α β : Type}

/-- A step and what follows it succeed if both do. -/
theorem bind_eq_ok_iff {x : Except ε α} {f : α → Except ε β} {b : β} :
    (x >>= f) = .ok b ↔ ∃ a, x = .ok a ∧ f a = .ok b := by
  cases x with
  | error e => simp [bind, Except.bind]
  | ok a => simp [bind, Except.bind]

/-- They fail if the first does, or what follows it. -/
theorem bind_eq_error_iff {x : Except ε α} {f : α → Except ε β} {e : ε} :
    (x >>= f) = .error e ↔ x = .error e ∨ ∃ a, x = .ok a ∧ f a = .error e := by
  cases x with
  | error e => simp [bind, Except.bind]
  | ok a => simp [bind, Except.bind]

theorem map_eq_ok_iff {x : Except ε α} {f : α → β} {b : β} :
    x.map f = .ok b ↔ ∃ a, x = .ok a ∧ f a = b := by
  cases x with
  | error e => simp [Except.map]
  | ok a => simp [Except.map]

/-- A step for each element of a list succeeds if all of them do. -/
theorem mapM_eq_ok_iff {f : α → Except ε β} {as : List α} {bs : List β} :
    as.mapM f = .ok bs ↔ List.Forall₂ (fun a b ↦ f a = .ok b) as bs := by
  induction as generalizing bs with
  | nil =>
      rw [List.mapM_nil, List.forall₂_nil_left_iff]
      constructor
      · rintro h
        cases h
        rfl
      · rintro rfl
        rfl
  | cons a as ih =>
      simp only [List.mapM_cons, bind_eq_ok_iff, ih, List.forall₂_cons_left_iff]
      constructor
      · rintro ⟨b, hb, bs, hbs, h⟩
        cases h
        exact ⟨b, bs, hb, hbs, rfl⟩
      · rintro ⟨b, bs, hb, hbs, rfl⟩
        exact ⟨b, hb, bs, hbs, rfl⟩

/-- Steps that pass on a state keep what each of them keeps. -/
theorem foldlM_induction {f : β → α → Except ε β} {as : List α} {b c : β} {P : List α → β → Prop}
    (step : ∀ a as b c, P (a :: as) b → f b a = .ok c → P as c) (hb : P as b)
    (h : as.foldlM f b = .ok c) : P [] c := by
  induction as generalizing b with
  | nil =>
      cases h
      exact hb
  | cons a as ih =>
      rw [List.foldlM_cons, bind_eq_ok_iff] at h
      obtain ⟨d, hd, h⟩ := h
      exact ih (step a as b d hb hd) h

/-- Where a step says of each element whether it fits and puts it in if so, all of a list is put in if each
of its elements fits at first and no two of them are in each other's way. -/
theorem foldlM_eq_ok_iff {f : β → α → Except ε β} {put : β → α → β} (fits : β → α → Prop)
    (apart : α → α → Prop) (hf : ∀ b a c, f b a = .ok c ↔ fits b a ∧ c = put b a)
    (hfits : ∀ b a a', fits (put b a) a' ↔ fits b a' ∧ apart a a') {as : List α} {b c : β} :
    as.foldlM f b = .ok c ↔ as.Pairwise apart ∧ (∀ a ∈ as, fits b a) ∧ c = as.foldl put b := by
  induction as generalizing b with
  | nil =>
      rw [List.foldlM_nil, List.foldl_nil]
      simp [pure, Except.pure, eq_comm]
  | cons a as ih =>
      simp only [List.foldlM_cons, bind_eq_ok_iff, hf, ih, List.pairwise_cons, List.forall_mem_cons,
        List.foldl_cons]
      constructor
      · rintro ⟨d, ⟨ha, rfl⟩, hpair, hall, rfl⟩
        have hrest := fun a' ha' ↦ (hfits b a a').mp (hall a' ha')
        exact ⟨⟨fun a' ha' ↦ (hrest a' ha').2, hpair⟩, ⟨ha, fun a' ha' ↦ (hrest a' ha').1⟩, rfl⟩
      · rintro ⟨⟨hapart, hpair⟩, ⟨ha, hall⟩, rfl⟩
        exact ⟨_, ⟨ha, rfl⟩, hpair, fun a' ha' ↦ (hfits b a a').mpr ⟨hall a' ha', hapart a' ha'⟩, rfl⟩

/-- Errors may be reworded at every step or at the end. -/
theorem mapError_bind {ε' : Type} (g : ε → ε') (x : Except ε α) (f : α → Except ε β) :
    (x >>= f).mapError g = x.mapError g >>= fun a ↦ (f a).mapError g := by
  cases x <;> rfl

theorem mapError_map {ε' : Type} (g : ε → ε') (x : Except ε α) (f : α → β) :
    (x.map f).mapError g = (x.mapError g).map f := by
  cases x <;> rfl

/-- What succeeds has a value to show. -/
theorem eq_ok_of_toOption {x : Except ε α} {a : α} (h : x.toOption = some a) : x = .ok a := by
  cases x with
  | error e => cases h
  | ok b =>
      cases h
      rfl

end FormulaNet

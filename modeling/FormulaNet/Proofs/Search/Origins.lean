import FormulaNet.Derivation.Search
import Mathlib.Data.Finset.Card
import Mathlib.Logic.Relation

/-!
# Tables of origins

A table of origins says for each derived quantity by which formula it is found and from what.  Where some
rank falls from every output to its inputs, the table has no cycle, and the walk of `order` from a target
lists what the target needs, each once and after its own inputs.  The walk is bounded by the size of the
table: along a chain of inputs the number of entries of smaller rank falls.
-/

namespace FormulaNet.Search

variable {origins : Origins} {rank : QuantityId → Nat} {done : List QuantityId}
variable {p q : QuantityId} {n : Nat}

/-- `p` is an input of the origin of `q`. -/
def Uses (origins : Origins) (q p : QuantityId) : Prop :=
  ∃ o, origins[q]? = some o ∧ p ∈ o.inputs

/-- `q` cannot be derived without `p`: there is a chain of inputs between them, or none is needed. -/
abbrev Needs (origins : Origins) : QuantityId → QuantityId → Prop := Relation.ReflTransGen (Uses origins)

/-- The rank falls from outputs to inputs. -/
def Ranked (origins : Origins) (rank : QuantityId → Nat) : Prop :=
  ∀ q p, Uses origins q p → rank p < rank q

/-- Every quantity in the list has an origin and comes once, after its inputs as far as they have origins
themselves. -/
inductive InputsFirst (origins : Origins) : List QuantityId → Prop
  | nil : InputsFirst origins []
  | concat {done : List QuantityId} {q : QuantityId} {o : Origin} :
      InputsFirst origins done → q ∉ done → origins[q]? = some o →
      (∀ p ∈ o.inputs, p ∈ origins → p ∈ done) → InputsFirst origins (done ++ [q])

theorem mem_of_uses (h : Uses origins q p) : q ∈ origins := by
  obtain ⟨o, ho, -⟩ := h
  exact Std.TreeMap.mem_iff_isSome_getElem?.mpr (by simp [ho])

theorem Uses.mem_inputs {o : Origin} (h : Uses origins q p) (ho : origins[q]? = some o) : p ∈ o.inputs := by
  obtain ⟨o', ho', hp⟩ := h
  rw [ho] at ho'
  cases ho'
  exact hp

/-- What a quantity needs has no greater rank. -/
theorem Ranked.le_of_needs (hr : Ranked origins rank) (h : Needs origins q p) : rank p ≤ rank q := by
  induction h with
  | refl => exact Nat.le_refl _
  | tail _ hu ih => exact Nat.le_trans (Nat.le_of_lt (hr _ _ hu)) ih

/-! ## Lists with inputs first -/

theorem InputsFirst.nodup (h : InputsFirst origins done) : done.Nodup := by
  induction h with
  | nil => exact List.nodup_nil
  | concat _ hq _ _ ih =>
      rw [List.nodup_append]
      refine ⟨ih, by simp, ?_⟩
      rintro a ha b hb rfl
      exact hq (List.mem_singleton.mp hb ▸ ha)

theorem InputsFirst.mem_origins (h : InputsFirst origins done) (hq : q ∈ done) : q ∈ origins := by
  induction h with
  | nil => cases hq
  | @concat done r o _ _ ho _ ih =>
      rcases List.mem_append.mp hq with hq | hq
      · exact ih hq
      · rw [List.mem_singleton.mp hq]
        exact Std.TreeMap.mem_iff_isSome_getElem?.mpr (by simp [ho])

/-- The list holds the inputs of its quantities, as far as they have origins. -/
theorem InputsFirst.mem_of_uses (h : InputsFirst origins done) (hq : q ∈ done) (hu : Uses origins q p)
    (hp : p ∈ origins) : p ∈ done := by
  induction h with
  | nil => cases hq
  | @concat done r o _ _ ho hin ih =>
      rcases List.mem_append.mp hq with hq | hq
      · exact List.mem_append_left _ (ih hq)
      · obtain rfl := List.mem_singleton.mp hq
        exact List.mem_append_left _ (hin p (hu.mem_inputs ho) hp)

/-- The list holds all that its quantities need. -/
theorem InputsFirst.mem_of_needs (h : InputsFirst origins done) (hq : q ∈ done) (hn : Needs origins q p)
    (hp : p ∈ origins) : p ∈ done := by
  induction hn with
  | refl => exact hq
  | tail _ hu ih => exact h.mem_of_uses (ih (Search.mem_of_uses hu)) hu hp

/-- What a quantity goes into comes after it. -/
theorem InputsFirst.mem_after (h : InputsFirst origins done) {before after : List QuantityId}
    (hd : done = before ++ p :: after) (hq : q ∈ done) (hu : Uses origins q p) (hqp : q ≠ p) :
    q ∈ after := by
  induction h generalizing before after with
  | nil => cases hq
  | @concat done r o hfirst hr _ _ ih =>
      have hp : p ∈ origins := (InputsFirst.concat hfirst hr ‹_› ‹_›).mem_origins (hd ▸ by simp)
      rcases List.eq_nil_or_concat after with rfl | ⟨after, x, rfl⟩
      · obtain ⟨rfl, hrp⟩ := List.append_inj' hd rfl
        obtain rfl := (List.cons.inj hrp).1
        have hq : q ∈ done := by simpa [hqp] using hq
        exact absurd (hfirst.mem_of_uses hq hu hp) hr
      · rw [List.concat_eq_append] at hd ⊢
        rw [← List.cons_append, ← List.append_assoc] at hd
        obtain ⟨rfl, hrx⟩ := List.append_inj' hd rfl
        obtain rfl := (List.cons.inj hrx).1
        rcases List.mem_append.mp hq with hq | hq
        · exact List.mem_append_left _ (ih rfl hq)
        · exact List.mem_append_right _ hq

/-- What a quantity is found from comes before it. -/
theorem InputsFirst.mem_before (h : InputsFirst origins done) {before after : List QuantityId}
    (hd : done = before ++ q :: after) (hu : Uses origins q p) (hp : p ∈ origins) : p ∈ before := by
  induction h generalizing after with
  | nil => simp at hd
  | @concat done r o hfirst hr ho hin ih =>
      rcases List.eq_nil_or_concat after with rfl | ⟨after, x, rfl⟩
      · obtain ⟨rfl, hrq⟩ := List.append_inj' hd rfl
        obtain rfl := (List.cons.inj hrq).1
        exact hin p (hu.mem_inputs ho) hp
      · rw [List.concat_eq_append, ← List.cons_append, ← List.append_assoc] at hd
        exact ih (List.append_inj' hd rfl).1

/-! ## Tables without a cycle -/

/-- No quantity is found from itself, be it by way of others. -/
def Acyclic (origins : Origins) : Prop := ∀ q, ¬Relation.TransGen (Uses origins) q q

theorem Ranked.lt_of_transGen (hr : Ranked origins rank) (h : Relation.TransGen (Uses origins) q p) :
    rank p < rank q := by
  induction h with
  | single hu => exact hr _ _ hu
  | tail _ hu ih => exact Nat.lt_trans (hr _ _ hu) ih

theorem Ranked.acyclic (hr : Ranked origins rank) : Acyclic origins :=
  fun _ h ↦ Nat.lt_irrefl _ (hr.lt_of_transGen h)

/-- Without a cycle a quantity is ranked by how many entries it needs. -/
theorem Acyclic.exists_ranked (h : Acyclic origins) : ∃ rank, Ranked origins rank := by
  classical
  refine ⟨fun q ↦ (origins.keys.toFinset.filter (Needs origins q)).card, fun q p hu ↦ ?_⟩
  apply Finset.card_lt_card
  rw [Finset.ssubset_iff_of_subset]
  · refine ⟨q, ?_, ?_⟩
    · simpa [Relation.ReflTransGen.refl] using mem_of_uses hu
    · -- if `p` needed `q` in turn, there would be a cycle through both
      intro hq
      exact h q (.head' hu (Finset.mem_filter.mp hq).2)
  · intro r hr
    obtain ⟨hr, hneeds⟩ := Finset.mem_filter.mp hr
    exact Finset.mem_filter.mpr ⟨hr, .head hu hneeds⟩

theorem mem_of_transGen (h : Relation.TransGen (Uses origins) q p) : q ∈ origins := by
  obtain ⟨r, hu, -⟩ := Relation.TransGen.head'_iff.mp h
  exact mem_of_uses hu

/-- What is listed with inputs first lies on no cycle. -/
theorem InputsFirst.not_transGen (h : InputsFirst origins done) (hq : q ∈ done) :
    ¬Relation.TransGen (Uses origins) q q := by
  induction h with
  | nil => cases hq
  | @concat done r o hfirst hr ho hin ih =>
      rcases List.mem_append.mp hq with hq | hq
      · exact ih hq
      · obtain rfl := List.mem_singleton.mp hq
        intro hcycle
        -- the cycle goes through an input, which is listed before and needs the quantity itself
        obtain ⟨p, hu, hneeds⟩ := Relation.TransGen.head'_iff.mp hcycle
        have hqo := mem_of_transGen hcycle
        have hpo : p ∈ origins := by
          rcases Relation.ReflTransGen.cases_head hneeds with rfl | ⟨r, hpr, -⟩
          · exact hqo
          · exact Search.mem_of_uses hpr
        exact hr (hfirst.mem_of_needs (hin p (hu.mem_inputs ho) hpo) hneeds hqo)

/-! ## The walk -/

/-- How many entries have no greater rank than a quantity. -/
def height (origins : Origins) (rank : QuantityId → Nat) (q : QuantityId) : Nat :=
  (origins.keys.toFinset.filter (rank · ≤ rank q)).card

theorem height_le_size : height origins rank q ≤ origins.size :=
  calc height origins rank q
      ≤ origins.keys.toFinset.card := Finset.card_filter_le _ _
    _ ≤ origins.keys.length := List.toFinset_card_le _
    _ = origins.size := Std.TreeMap.length_keys

theorem height_lt (hq : q ∈ origins) (h : rank p < rank q) :
    height origins rank p < height origins rank q := by
  apply Finset.card_lt_card
  rw [Finset.ssubset_iff_of_subset]
  · exact ⟨q, by simpa using hq, by simp [h]⟩
  · intro r hr
    simp only [Finset.mem_filter] at hr ⊢
    exact ⟨hr.1, Nat.le_trans hr.2 (Nat.le_of_lt h)⟩

theorem height_pos (rank : QuantityId → Nat) (hq : q ∈ origins) : 0 < height origins rank q :=
  Finset.card_pos.mpr ⟨q, by simpa using hq⟩

/-- What a part of the walk achieves that sets out from `roots`: it goes on with a list with inputs first,
lists the roots, and nothing that is not needed for them. -/
structure Walked (origins : Origins) (roots done done' : List QuantityId) : Prop where
  inputsFirst : InputsFirst origins done'
  subset : ∀ p ∈ done, p ∈ done'
  listed : ∀ p ∈ roots, p ∈ origins → p ∈ done'
  needed : ∀ p ∈ done', p ∈ done ∨ ∃ q ∈ roots, Needs origins q p

/-- Nothing is left to do where the roots are listed. -/
theorem Walked.stay {roots : List QuantityId} (hd : InputsFirst origins done)
    (h : ∀ p ∈ roots, p ∈ origins → p ∈ done) : Walked origins roots done done :=
  ⟨hd, fun _ hp ↦ hp, h, fun _ hp ↦ .inl hp⟩

/-- The walk passes a quantity without an origin, and one that is listed already. -/
theorem order_of_passed (h : q ∈ origins → q ∈ done) : order origins n q done = done := by
  cases n with
  | zero => rfl
  | succ n =>
      unfold order
      split
      · rfl
      · next o ho =>
        exact if_pos (h (Std.TreeMap.mem_iff_isSome_getElem?.mpr (by simp [ho])))

/-- The walk over several quantities, if it is right for each of them. -/
theorem walked_foldl {roots : List QuantityId}
    (h : ∀ q ∈ roots, ∀ done, InputsFirst origins done → Walked origins [q] done (order origins n q done))
    (hd : InputsFirst origins done) :
    Walked origins roots done (roots.foldl (fun done q ↦ order origins n q done) done) := by
  induction roots generalizing done with
  | nil => exact .stay hd fun p hp ↦ by cases hp
  | cons q roots ih =>
      have hfirst := h q List.mem_cons_self done hd
      have hrest := ih (fun r hr ↦ h r (List.mem_cons_of_mem q hr)) hfirst.inputsFirst
      refine ⟨hrest.inputsFirst, fun p hp ↦ hrest.subset p (hfirst.subset p hp), ?_, ?_⟩
      · intro p hp hpo
        rcases List.mem_cons.mp hp with rfl | hp
        · exact hrest.subset p (hfirst.listed p List.mem_cons_self hpo)
        · exact hrest.listed p hp hpo
      · intro p hp
        rcases hrest.needed p hp with hp | ⟨r, hr, hn⟩
        · rcases hfirst.needed p hp with hp | ⟨r, hr, hn⟩
          · exact .inl hp
          · exact .inr ⟨q, List.mem_cons_self, List.mem_singleton.mp hr ▸ hn⟩
        · exact .inr ⟨r, List.mem_cons_of_mem q hr, hn⟩

/-- The walk from one quantity, if its bound is no less than the number of entries it may have to pass. -/
theorem walked_order (hr : Ranked origins rank) (hn : height origins rank q ≤ n)
    (hd : InputsFirst origins done) : Walked origins [q] done (order origins n q done) := by
  induction n generalizing q done with
  | zero =>
      refine .stay hd fun p hp hpo ↦ ?_
      obtain rfl := List.mem_singleton.mp hp
      have := height_pos rank hpo
      omega
  | succ n ih =>
      unfold order
      split
      · next hnone =>
        refine .stay hd fun p hp hpo ↦ ?_
        obtain rfl := List.mem_singleton.mp hp
        simp [Std.TreeMap.mem_iff_isSome_getElem?, hnone] at hpo
      · next o ho =>
        split
        · next hq =>
          exact .stay hd fun p hp _ ↦ List.mem_singleton.mp hp ▸ hq
        · next hq =>
          have hqo : q ∈ origins := Std.TreeMap.mem_iff_isSome_getElem?.mpr (by simp [ho])
          have hinputs : ∀ p ∈ o.inputs, rank p < rank q := fun p hp ↦ hr q p ⟨o, ho, hp⟩
          have hwalk : Walked origins o.inputs done
              (o.inputs.foldl (fun done p ↦ order origins n p done) done) := by
            refine walked_foldl (fun p hp done hd ↦ ih ?_ hd) hd
            have := height_lt hqo (hinputs p hp)
            omega
          -- what the inputs need has a smaller rank than `q`, so `q` cannot be among it
          have hnew : q ∉ o.inputs.foldl (fun done p ↦ order origins n p done) done := by
            intro hmem
            rcases hwalk.needed q hmem with hmem | ⟨p, hp, hneed⟩
            · exact hq hmem
            · have := hr.le_of_needs hneed
              have := hinputs p hp
              omega
          refine ⟨.concat hwalk.inputsFirst hnew ho hwalk.listed, ?_, ?_, ?_⟩
          · exact fun p hp ↦ List.mem_append_left _ (hwalk.subset p hp)
          · exact fun p hp _ ↦ List.mem_append_right _ hp
          · intro p hp
            rcases List.mem_append.mp hp with hp | hp
            · rcases hwalk.needed p hp with hp | ⟨r, hr, hn⟩
              · exact .inl hp
              · exact .inr ⟨q, List.mem_cons_self, .head ⟨o, ho, hr⟩ hn⟩
            · exact .inr ⟨q, List.mem_cons_self, List.mem_singleton.mp hp ▸ .refl⟩

/-- The quantities to derive for a target, each after its inputs. -/
def needed (origins : Origins) (target : QuantityId) : List QuantityId :=
  order origins origins.size target []

theorem walked_needed (hr : Ranked origins rank) (q : QuantityId) :
    Walked origins [q] [] (needed origins q) :=
  walked_order hr height_le_size .nil

theorem needs_of_mem_needed (hr : Ranked origins rank) (hp : p ∈ needed origins q) :
    Needs origins q p := by
  rcases (walked_needed hr q).needed p hp with hp | ⟨r, hr, hn⟩
  · cases hp
  · exact List.mem_singleton.mp hr ▸ hn

/-- The target itself comes last. -/
theorem needed_eq_concat (hq : q ∈ origins) : ∃ before, needed origins q = before ++ [q] := by
  obtain ⟨o, ho⟩ := Option.isSome_iff_exists.mp (Std.TreeMap.mem_iff_isSome_getElem?.mp hq)
  have hsize : 0 < origins.size := Nat.lt_of_lt_of_le (height_pos (fun _ ↦ 0) hq) height_le_size
  obtain ⟨n, hn⟩ := Nat.exists_eq_add_one.mpr hsize
  refine ⟨o.inputs.foldl (fun done p ↦ order origins n p done) [], ?_⟩
  simp only [needed, hn, order, ho, List.not_mem_nil, ↓reduceIte]

/-- What is listed before the target goes into something that is listed later. -/
theorem exists_use_after (hr : Ranked origins rank) {before after : List QuantityId}
    (h : needed origins q = before ++ p :: after) (ha : after ≠ []) : ∃ r ∈ after, Uses origins r p := by
  have hfirst := (walked_needed hr q).inputsFirst
  have hp : p ∈ needed origins q := h ▸ by simp
  have hpo := hfirst.mem_origins hp
  have hneed := needs_of_mem_needed hr hp
  rcases Relation.ReflTransGen.cases_tail hneed with rfl | ⟨r, hqr, hrp⟩
  · -- the target is listed last and once, so nothing comes after it
    obtain ⟨front, hfront⟩ := needed_eq_concat hpo
    obtain ⟨after, x, rfl⟩ := (List.eq_nil_or_concat after).resolve_left ha
    rw [List.concat_eq_append, ← List.cons_append, ← List.append_assoc] at h
    obtain rfl := (List.cons.inj (List.append_inj' (hfront.symm.trans h) rfl).2).1
    have hnodup := h ▸ hfirst.nodup
    simp [List.nodup_append] at hnodup
  · have hq : q ∈ origins := by
      rcases Relation.ReflTransGen.cases_head hneed with rfl | ⟨r, hqr, -⟩
      · exact hpo
      · exact mem_of_uses hqr
    have hqn := (walked_needed hr q).listed q List.mem_cons_self hq
    have hrn := hfirst.mem_of_needs hqn hqr (mem_of_uses hrp)
    have hne : r ≠ p := by
      rintro rfl
      exact Nat.lt_irrefl _ (hr r r hrp)
    exact ⟨r, hfirst.mem_after h hrn hrp hne, hrp⟩

end FormulaNet.Search

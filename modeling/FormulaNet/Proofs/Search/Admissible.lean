import FormulaNet.Proofs.Search.Optimal

/-!
# The estimate is admissible

An estimate that is nothing at the target and changes by one hop at most within a formula cannot exceed what
still separates a quantity from the target.  `DerivedThrough` makes that precise for formulas with several
inputs: a derivation of the target gets to the quantity at some depth, and the depth of the target lies at
least the estimate above it.  Each formula on the way adds one to the depth and takes one off the estimate at
most, so nothing more than consistency is needed.
-/

namespace FormulaNet

variable {formulas : List Formula} {known : List QuantityId} {a q : QuantityId} {m n : Nat}

/-- A derivation of `q` at the depth `n` in which `a` is found at the depth `m`. -/
inductive DerivedThrough (formulas : List Formula) (known : List QuantityId) (a : QuantityId) (m : Nat) :
    QuantityId → Nat → Prop
  | self : DerivedAt formulas known a m → DerivedThrough formulas known a m a m
  | apply {f : Formula} {p q : QuantityId} {depth : QuantityId → Nat} :
      f ∈ formulas → q ∈ f.quantities → p ∈ f.others q →
      (∀ r ∈ f.others q, DerivedAt formulas known r (depth r)) →
      DerivedThrough formulas known a m p (depth p) →
      DerivedThrough formulas known a m q (((f.others q).map depth).foldr max 0 + 1)

/-- It is a derivation like any other. -/
theorem DerivedThrough.derivedAt (h : DerivedThrough formulas known a m q n) :
    DerivedAt formulas known q n := by
  cases h with
  | self ha => exact ha
  | apply hf hq hp hin _ => exact .apply hf hq (List.ne_nil_of_mem hp) hin

/-- Where a single quantity is known every derivation starts from it. -/
theorem DerivedAt.derivedThrough (h : DerivedAt formulas [a] q n) :
    DerivedThrough formulas [a] a 0 q n := by
  induction h with
  | known hq =>
      obtain rfl := List.mem_singleton.mp hq
      exact .self (.known hq)
  | @apply f q depth hf hq hne hin ih =>
      obtain ⟨p, hp⟩ := List.exists_mem_of_ne_nil _ hne
      exact .apply hf hq hp hin (ih p hp)

namespace Search

variable {h : Heuristic} {b target : QuantityId} {k : Nat}

namespace Consistent

/-- Along a way the estimate changes by its length at most. -/
theorem le_after_of_way (hcons : Consistent formulas h) (hway : Way formulas a b k) :
    h.estimate a ≤ (h.estimate b).after k := by
  induction hway with
  | nil => cases h.estimate a <;> simp
  | @hop b c k _ hbc ih =>
      have hstep := Distance.after_le_after k (hcons b c hbc)
      rw [Distance.after_after] at hstep
      exact Distance.le_trans ih hstep

/-- Along a derivation depth and estimate together do not fall. -/
theorem after_le_after (hcons : Consistent formulas h) (hq : DerivedThrough formulas known a m q n) :
    (h.estimate a).after m ≤ (h.estimate q).after n := by
  induction hq with
  | self => exact Distance.le_refl _
  | @apply f p q depth hf hq hp _ _ ih =>
      have hstep := Distance.after_le_after (depth p) (hcons p q ⟨f, hf, (Formula.mem_others.mp hp).1, hq⟩)
      rw [Distance.after_after] at hstep
      have hdepth := le_foldr_max depth hp
      exact Distance.le_trans ih (Distance.le_trans hstep (Distance.after_mono (by omega)))

end Consistent

/-- **The estimate is consistent and never too large.**  With the table of the catalogue it is nothing at the
target and changes by one at most between quantities of a formula.  So it exceeds neither the length of any
way to the target nor, in any derivation of the target, what the depth of the target is above that of the
quantity; and with one quantity known no depth at which the target can be derived. -/
theorem estimate_admissible {c : Catalogue} (hc : c.Grown) (target : QuantityId) :
    ∃ h, heuristic c.source (.build c.allQuantities c.allFormulas) target = .ok h ∧
      h.estimate target = .hops 0 ∧
      (∀ f ∈ c.allFormulas, ∀ a ∈ f.quantities, ∀ b ∈ f.quantities,
        h.estimate a ≤ (h.estimate b).after 1) ∧
      (∀ a k, Way c.allFormulas a target k → h.estimate a ≤ .hops k) ∧
      (∀ known a m n, DerivedThrough c.allFormulas known a m target n →
        (h.estimate a).after m ≤ .hops n) ∧
      ∀ a n, DerivedAt c.allFormulas [a] target n → h.estimate a ≤ .hops n := by
  have hsource := hc.coherent.lists
  obtain ⟨fs, hfs, -⟩ := hsource.referencing target
  obtain ⟨h, hh, htarget⟩ : ∃ h, heuristic c.source (.build c.allQuantities c.allFormulas) target = .ok h ∧
      h.target = target := ⟨_, heuristic_eq_ok_iff.mpr ⟨fs, hfs, rfl⟩, rfl⟩
  have hzero : h.estimate target = .hops 0 := if_pos htarget.symm
  have hcons : Consistent c.allFormulas h := fun a b hab ↦ estimate_le_after hsource hh hab
  have hthrough : ∀ known a m n, DerivedThrough c.allFormulas known a m target n →
      (h.estimate a).after m ≤ .hops n := by
    intro known a m n hderived
    have hle := hcons.after_le_after hderived
    rwa [hzero] at hle
  refine ⟨h, hh, hzero, ?_, ?_, hthrough, ?_⟩
  · exact fun f hf a ha b hb ↦ hcons a b ⟨f, hf, ha, hb⟩
  · intro a k hway
    have hle := hcons.le_after_of_way hway
    rwa [hzero] at hle
  · intro a n hderived
    have hle := hthrough [a] a 0 n hderived.derivedThrough
    cases hestimate : h.estimate a <;> simp_all

/-- The velocity is two hops from the force, and where mass, time and velocity are known the force is found two
deeper than the velocity.  A quantity of no formula is out of reach. -/
theorem estimate_admissible_force :
    Catalogue.mechanics.Grown ∧
      DerivedThrough Catalogue.mechanics.allFormulas [5, 2, 4] 5 0 1 2 ∧
      ∃ h, heuristic Catalogue.mechanics.source
          (.build Catalogue.mechanics.allQuantities Catalogue.mechanics.allFormulas) 1 = .ok h ∧
        h.estimate 5 = .hops 2 ∧ h.estimate 6 = .unreachable ∧ (h.estimate 5).after 0 ≤ .hops 2 := by
  have hknown : ∀ q ∈ [5, 2, 4], DerivedAt Catalogue.mechanics.allFormulas [5, 2, 4] q 0 := fun q hq ↦ .known hq
  have hacceleration : DerivedThrough Catalogue.mechanics.allFormulas [5, 2, 4] 5 0 3 1 :=
    @DerivedThrough.apply _ _ _ _ ⟨2, "steady speeding up", "a = v / t", [3, 5, 4], []⟩ 5 3 (fun _ ↦ 0)
      (by decide) (by decide) (by decide)
      (fun r hr ↦ hknown r ((by decide : ∀ r ∈ [5, 4], r ∈ [5, 2, 4]) r hr)) (.self (hknown 5 (by decide)))
  have hforce : DerivedThrough Catalogue.mechanics.allFormulas [5, 2, 4] 5 0 1 2 := by
    refine @DerivedThrough.apply _ _ _ _ ⟨1, "second law", "F = m * a", [1, 2, 3], []⟩ 3 1
      (fun q ↦ if q = 3 then 1 else 0) (by decide) (by decide) (by decide) (fun r hr ↦ ?_) hacceleration
    obtain rfl | rfl : r = 2 ∨ r = 3 := by simpa [Formula.others] using hr
    · exact hknown 2 (by decide)
    · exact hacceleration.derivedAt
  obtain ⟨h, hh, -, -, -, hle, -⟩ := estimate_admissible Catalogue.grown_mechanics 1
  refine ⟨Catalogue.grown_mechanics, hforce, h, hh, ?_, ?_, hle _ _ _ _ hforce⟩
  · obtain rfl := Except.ok.inj hh
    decide
  · obtain rfl := Except.ok.inj hh
    decide

end Search

end FormulaNet

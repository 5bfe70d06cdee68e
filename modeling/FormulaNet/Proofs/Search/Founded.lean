import FormulaNet.Proofs.Knowledge.Tables
import FormulaNet.Proofs.Search.Origins
import FormulaNet.Proofs.Search.Run

/-!
# Depths and origins that are founded in the knowns

The search overwrites the depth and the origin of a quantity as long as the quantity waits.  Once the
quantity is expanded both are fixed, and origins take expanded quantities as inputs only; so every depth
says truly how far its quantity lies from the knowns along the origins, and the origins have no cycle.
`Founded` states this of a state, and no round breaks it, whatever the estimate suggests.
`Founded.derives` reads the derivation off.
-/

namespace FormulaNet.Search

variable {source : Source} {settings : SearchSettings} {h : Heuristic} {s t : State}
variable {formulas : List Formula} {known inputs : List QuantityId} {p q target : QuantityId}

/-! ## The depth of an output -/

/-- The depth of an output depends on the depths of its inputs only. -/
theorem outputDepth_congr (h : ∀ p ∈ inputs, s.depths[p]? = t.depths[p]?) :
    outputDepth s inputs = outputDepth t inputs := by
  unfold outputDepth
  rw [List.filterMap_congr h]

/-- The depths of outputs of expanded quantities are not changed any more. -/
theorem Ready.outputDepth_derive {f : Formula} (hr : Ready s f q) (hin : ∀ p ∈ inputs, p ∈ s.expanded) :
    outputDepth (s.derive h f q) inputs = outputDepth s inputs :=
  outputDepth_congr fun p hp ↦ hr.getElem?_depths (hin p hp)

/-- The depth of an output is one more than the greatest depth of its inputs. -/
theorem outputDepth_eq (h : ∀ p ∈ inputs, p ∈ s.depths) :
    outputDepth s inputs = (inputs.map (s.depths.getD · 0)).foldr max 0 + 1 := by
  have hmax : ∀ depths : List Nat, (depths.max?.map (· + 1)).getD 1 = depths.foldr max 0 + 1 := by
    intro depths
    induction depths with
    | nil => rfl
    | cons d depths ih =>
        rw [List.max?_cons, List.foldr_cons]
        cases hm : depths.max? <;> simp_all
  have hdepths : inputs.filterMap (s.depths[·]?) = inputs.map (s.depths.getD · 0) := by
    rw [← List.filterMap_eq_map]
    refine List.filterMap_congr fun p hp ↦ ?_
    obtain ⟨d, hd⟩ := Table.exists_of_mem (h p hp)
    simp [Std.TreeMap.getD_eq_getD_getElem?, hd]
  rw [outputDepth, hdepths, hmax]

theorem le_foldr_max (depth : QuantityId → Nat) (hp : p ∈ inputs) :
    depth p ≤ (inputs.map depth).foldr max 0 := by
  induction inputs with
  | nil => cases hp
  | cons r inputs ih =>
      rw [List.map_cons, List.foldr_cons]
      rcases List.mem_cons.mp hp with rfl | hp
      · exact Nat.le_max_left _ _
      · exact Nat.le_trans (ih hp) (Nat.le_max_right _ _)

/-- Every input lies less deep than the output. -/
theorem getD_lt_outputDepth (h : ∀ p ∈ inputs, p ∈ s.depths) (hp : p ∈ inputs) :
    s.depths.getD p 0 < outputDepth s inputs := by
  rw [outputDepth_eq h, Nat.lt_succ_iff]
  exact le_foldr_max (s.depths.getD · 0) hp

/-- The depth that the steps of a derivation give an output, where they agree on the inputs. -/
theorem outputDepth?_eq_some {depth : QuantityId → Option Nat} (h : ∀ p ∈ inputs, p ∈ s.depths)
    (hd : ∀ p ∈ inputs, depth p = s.depths[p]?) :
    Derivation.outputDepth? depth inputs = some (outputDepth s inputs) := by
  have hmap : inputs.mapM depth = some (inputs.map (s.depths.getD · 0)) := by
    induction inputs with
    | nil => rfl
    | cons r inputs ih =>
        obtain ⟨d, hr⟩ := Table.exists_of_mem (h r List.mem_cons_self)
        have hrest := ih (fun p hp ↦ h p (List.mem_cons_of_mem r hp))
          (fun p hp ↦ hd p (List.mem_cons_of_mem r hp))
        simp [hd r List.mem_cons_self, hr, hrest, Std.TreeMap.getD_eq_getD_getElem?]
  rw [Derivation.outputDepth?, hmap, outputDepth_eq h]
  rfl

theorem improves_iff {d : Nat} :
    improves s q d = true ↔ ∀ d', s.depths[q]? = some d' → d < d' := by
  unfold improves
  cases s.depths[q]? <;> simp

/-! ## Founded states -/

/-- An origin is founded if it applies a formula to expanded quantities and gives the depth on record. -/
structure Founds (formulas : List Formula) (s : State) (q : QuantityId) (o : Origin) : Prop where
  formula : ∃ f ∈ formulas, q ∈ f.quantities ∧ o = ⟨f.id, f.others q⟩
  nonempty : o.inputs ≠ []
  inputs : ∀ p ∈ o.inputs, p ∈ s.expanded
  depth : s.depths[q]? = some (outputDepth s o.inputs)

/-- Knowns have depth zero and no origin, other quantities with a depth have a founded origin, and expanded
quantities have a depth. -/
structure Founded (formulas : List Formula) (known : List QuantityId) (s : State) : Prop where
  known_depth : ∀ q ∈ known, s.depths[q]? = some 0
  known_origin : ∀ q ∈ known, q ∉ s.origins
  origin : ∀ q ∈ s.depths, q ∉ known → q ∈ s.origins
  founds : ∀ q o, s.origins[q]? = some o → Founds formulas s q o
  expanded : ∀ q ∈ s.expanded, q ∈ s.depths

theorem founded_start : Founded formulas known (start h known) where
  known_depth q hq := by rw [depths_start, if_pos hq]
  known_origin q _ := by simp
  origin q hq hk := by simp [Std.TreeMap.mem_iff_isSome_getElem?, depths_start, hk] at hq
  founds q o ho := by simp at ho
  expanded q hq := by simp at hq

namespace Founded

/-- The frontier does not matter. -/
theorem withFrontier (hs : Founded formulas known s) (frontier : List Entry) :
    Founded formulas known { s with frontier } :=
  ⟨hs.known_depth, hs.known_origin, hs.origin, fun q o ho ↦
    let ho := hs.founds q o ho
    ⟨ho.formula, ho.nonempty, ho.inputs, ho.depth⟩, hs.expanded⟩

/-- Expanding a quantity that has a depth. -/
theorem expand (hs : Founded formulas known s) (hq : q ∈ s.depths) (rest : List Entry) :
    Founded formulas known (s.expand q rest) where
  known_depth := hs.known_depth
  known_origin := hs.known_origin
  origin := hs.origin
  founds r o ho :=
    let ho := hs.founds r o ho
    ⟨ho.formula, ho.nonempty, fun p hp ↦ List.mem_cons_of_mem q (ho.inputs p hp), ho.depth⟩
  expanded r hr := by
    rcases List.mem_cons.mp hr with rfl | hr
    · exact hq
    · exact hs.expanded r hr

/-- Applying a ready formula: only its output, which still waits, gets a new depth and origin. -/
theorem derive (hs : Founded formulas known s) {f : Formula} (hf : f ∈ formulas) (hne : f.others q ≠ [])
    (hr : Ready s f q) (hi : improves s q (outputDepth s (f.others q)) = true) :
    Founded formulas known (s.derive h f q) := by
  have hunknown : q ∉ known := by
    intro hk
    have := improves_iff.mp hi 0 (hs.known_depth q hk)
    omega
  refine ⟨?_, ?_, ?_, ?_, ?_⟩
  · intro p hp
    have hpq : q ≠ p := fun he ↦ hunknown (he ▸ hp)
    simpa [State.derive, State.wait, Std.TreeMap.getElem?_insert, hpq] using hs.known_depth p hp
  · intro p hp hmem
    have hpq : q ≠ p := fun he ↦ hunknown (he ▸ hp)
    exact hs.known_origin p hp (by simpa [State.derive, State.wait, Std.TreeMap.mem_insert, hpq] using hmem)
  · intro p hp hk
    simp only [State.derive, State.wait, Std.TreeMap.mem_insert] at hp ⊢
    exact hp.imp_right fun hp ↦ hs.origin p hp hk
  · intro p o ho
    by_cases hpq : q = p
    · subst hpq
      simp only [State.derive, State.wait, Std.TreeMap.getElem?_insert_self, Option.some.injEq] at ho
      subst ho
      refine ⟨⟨f, hf, hr.mem.1, rfl⟩, hne, fun p hp ↦ hr.expanded hp, ?_⟩
      rw [hr.outputDepth_derive fun p hp ↦ hr.expanded hp]
      simp [State.derive, State.wait]
    · have ho : s.origins[p]? = some o := by
        simpa [State.derive, State.wait, Std.TreeMap.getElem?_insert, hpq] using ho
      have hold := hs.founds p o ho
      refine ⟨hold.formula, hold.nonempty, hold.inputs, ?_⟩
      rw [hr.outputDepth_derive hold.inputs, ← hold.depth]
      simp [State.derive, State.wait, Std.TreeMap.getElem?_insert, hpq]
  · intro p hp
    exact Std.TreeMap.mem_insert.mpr (.inr (hs.expanded p hp))

/-- No round breaks a founded state. -/
theorem step (hsource : source.Lists formulas) (hs : Founded formulas known s)
    (hstep : Round source settings h s t) : Founded formulas known t := by
  cases hstep with
  | skip hf hstale => exact hs.withFrontier _
  | @expand _ e rest fs hf hlive htarget hbudget hfs ho =>
      obtain ⟨fs', hfs', hmem⟩ := hsource.referencing e.quantity
      obtain rfl : fs = fs' := Except.ok.inj (hfs.symm.trans hfs')
      have hdepth : s.depths[e.quantity]? = some e.depth := by
        simp only [isStale, Bool.or_eq_false_iff, bne_eq_false_iff_eq] at hlive
        exact hlive.2
      have hq : e.quantity ∈ s.depths := Std.TreeMap.mem_iff_isSome_getElem?.mpr (by simp [hdepth])
      have hexpanded : Founded formulas known (s.expand e.quantity rest) := hs.expand hq rest
      -- the formulas offered relate the quantity that has just been expanded, which is thus among the inputs
      refine (offerAll_induction (P := fun fs t ↦ e.quantity ∈ t.expanded ∧
        (∀ f ∈ fs, f ∈ formulas ∧ e.quantity ∈ f.quantities) ∧ Founded formulas known t) ?_ ?_
        ⟨List.mem_cons_self, fun f hf ↦ (hmem f).mp hf, hexpanded⟩ ho).2.2
      · rintro t f fs q hr hi ⟨he, hfs, ht⟩
        have hne : e.quantity ≠ q := fun heq ↦ hr.mem.2 (heq ▸ he)
        have hin : e.quantity ∈ f.others q :=
          Formula.mem_others.mpr ⟨(hfs f List.mem_cons_self).2, hne⟩
        exact ⟨he, fun g hg ↦ hfs g (List.mem_cons_of_mem f hg),
          ht.derive (hfs f List.mem_cons_self).1 (List.ne_nil_of_mem hin) hr hi⟩
      · rintro t f fs - ⟨he, hfs, ht⟩
        exact ⟨he, fun g hg ↦ hfs g (List.mem_cons_of_mem f hg), ht⟩

/-- All states that the rounds reach are founded. -/
theorem reached (hsource : source.Lists formulas) (hs : Founded formulas known s)
    (hreach : Relation.ReflTransGen (Round source settings h) s t) : Founded formulas known t := by
  induction hreach with
  | refl => exact hs
  | tail _ hstep ih => exact ih.step hsource hstep

/-! ## The derivation of the target -/

/-- An input of an origin has a depth, and is known or has an origin itself. -/
theorem known_or_mem_origins (hs : Founded formulas known s) (hu : Uses s.origins q p) :
    p ∈ s.depths ∧ (p ∈ known ∨ p ∈ s.origins) := by
  obtain ⟨o, ho, hp⟩ := hu
  have hdepth := hs.expanded p ((hs.founds q o ho).inputs p hp)
  exact ⟨hdepth, or_iff_not_imp_left.mpr (hs.origin p hdepth)⟩

/-- Depths rank the origins: there is no cycle. -/
theorem ranked (hs : Founded formulas known s) : Ranked s.origins (s.depths.getD · 0) := by
  rintro q p ⟨o, ho, hp⟩
  have hold := hs.founds q o ho
  have hlt := getD_lt_outputDepth (fun p hp ↦ hs.expanded p (hold.inputs p hp)) hp
  simpa [Std.TreeMap.getD_eq_getD_getElem?, hold.depth] using hlt

end Founded

/-- The steps that find the quantities of a list by their origins. -/
def stepsOf (origins : Origins) (ids : List QuantityId) : List Step := ids.filterMap (stepOf? origins)

theorem mem_stepsOf {origins : Origins} {ids : List QuantityId} {st : Step} :
    st ∈ stepsOf origins ids ↔
      ∃ q ∈ ids, ∃ o, origins[q]? = some o ∧ Step.ofFormula o.formula o.inputs q = st := by
  simp [stepsOf, stepOf?]

theorem stepsOf_concat {origins : Origins} {ids : List QuantityId} {o : Origin}
    (ho : origins[q]? = some o) :
    stepsOf origins (ids ++ [q]) = stepsOf origins ids ++ [.ofFormula o.formula o.inputs q] := by
  simp [stepsOf, stepOf?, ho]

theorem outputs_stepsOf {origins : Origins} {ids : List QuantityId} (h : ∀ q ∈ ids, q ∈ origins) :
    Derivation.outputs (stepsOf origins ids) = ids := by
  induction ids with
  | nil => rfl
  | cons q ids ih =>
      obtain ⟨o, ho⟩ := Table.exists_of_mem (h q List.mem_cons_self)
      have hrest := ih fun q hq ↦ h q (List.mem_cons_of_mem _ hq)
      simp only [stepsOf, stepOf?, List.filterMap_cons, ho, Option.map_some] at hrest ⊢
      exact congrArg (q :: ·) hrest

namespace Founded

/-- A list with inputs first is an order in which every input is at hand. -/
theorem isWellOrdered_stepsOf (hs : Founded formulas known s) {ids : List QuantityId}
    (h : InputsFirst s.origins ids) :
    Derivation.isWellOrdered known (stepsOf s.origins ids) = true := by
  induction h with
  | nil => rfl
  | @concat ids q o hids _ ho hin ih =>
      rw [stepsOf_concat ho]
      refine Derivation.isWellOrdered_concat ih fun p hp ↦ ?_
      rw [outputs_stepsOf fun q hq ↦ hids.mem_origins hq]
      exact (hs.known_or_mem_origins ⟨o, ho, hp⟩).2.imp_right (hin p hp)

/-- Along the steps every quantity gets the depth on record. -/
theorem depthsFrom_stepsOf (hs : Founded formulas known s) {ids : List QuantityId}
    (h : InputsFirst s.origins ids) (hp : p ∈ known ∨ p ∈ ids) :
    Derivation.depthsFrom (Derivation.knownDepth known) (stepsOf s.origins ids) p = s.depths[p]? := by
  induction h generalizing p with
  | nil =>
      have hp : p ∈ known := hp.resolve_right List.not_mem_nil
      rw [hs.known_depth p hp]
      exact if_pos hp
  | @concat ids q o hids _ ho hin ih =>
      rw [stepsOf_concat ho, Step.ofFormula, Derivation.depthsFrom_concat]
      have hold := hs.founds q o ho
      by_cases hpq : p = q
      · subst hpq
        simp only [↓reduceIte]
        rw [hold.depth]
        refine outputDepth?_eq_some (fun r hr ↦ hs.expanded r (hold.inputs r hr)) fun r hr ↦ ih ?_
        exact (hs.known_or_mem_origins ⟨o, ho, hr⟩).2.imp_right (hin r hr)
      · simp only [hpq, ↓reduceIte]
        exact ih (by simpa [hpq] using hp)

/-- The derivation of a quantity with an origin derives it at the depth on record. -/
theorem derives (hs : Founded formulas known s) {d : Nat} (hq : q ∈ s.origins)
    (hd : s.depths[q]? = some d) :
    Derivation.Derives formulas known q d (reconstruct s.origins q) := by
  have hfirst := (walked_needed hs.ranked q).inputsFirst
  have houtputs := outputs_stepsOf fun p hp ↦ hfirst.mem_origins hp
  change Derivation.Derives formulas known q d (.ofSteps (stepsOf s.origins (needed s.origins q)))
  refine .ofSteps ⟨?_, hs.isWellOrdered_stepsOf hfirst, ?_, ?_, ?_, ?_, ?_⟩
  · intro st hst
    obtain ⟨p, -, o, ho, rfl⟩ := mem_stepsOf.mp hst
    obtain ⟨f, hf, hp, rfl⟩ := (hs.founds p o ho).formula
    exact ⟨f, hf, p, hp, _, _, rfl⟩
  · rw [houtputs]
    exact hfirst.nodup
  · intro p hp hk
    rw [houtputs] at hp
    exact hs.known_origin p hk (hfirst.mem_origins hp)
  · intro before st after hsplit ha
    have hst : ∀ t ∈ st :: after, ∃ r o, s.origins[r]? = some o ∧
        t = Step.ofFormula o.formula o.inputs r := by
      intro t ht
      obtain ⟨r, -, o, ho, rfl⟩ := mem_stepsOf.mp (hsplit ▸ List.mem_append_right before ht)
      exact ⟨r, o, ho, rfl⟩
    obtain ⟨p, o, ho, rfl⟩ := hst st List.mem_cons_self
    have hlist : needed s.origins q = Derivation.outputs before ++ p :: Derivation.outputs after := by
      rw [← houtputs, hsplit]
      exact Derivation.outputs_append before _
    have hafter : Derivation.outputs after ≠ [] := by
      obtain ⟨t, ht⟩ := List.exists_mem_of_ne_nil after ha
      obtain ⟨r, o', -, rfl⟩ := hst t (List.mem_cons_of_mem _ ht)
      exact List.ne_nil_of_mem (List.mem_filterMap.mpr ⟨_, ht, rfl⟩)
    obtain ⟨r, hr, o', ho', hpo⟩ := exists_use_after hs.ranked hlist hafter
    obtain ⟨t, ht, htr⟩ := List.mem_filterMap.mp hr
    obtain ⟨r', o'', ho'', rfl⟩ := hst t (List.mem_cons_of_mem _ ht)
    obtain rfl : r' = r := Option.some.inj htr
    rw [ho'] at ho''
    cases ho''
    exact ⟨p, rfl, _, ht, hpo⟩
  · obtain ⟨front, hfront⟩ := needed_eq_concat hq
    obtain ⟨o, ho⟩ := Table.exists_of_mem hq
    rw [hfront, stepsOf_concat ho, List.getLast?_concat]
    rfl
  · rw [hs.depthsFrom_stepsOf hfirst (.inr ?_), hd]
    exact (walked_needed hs.ranked q).listed q List.mem_cons_self hq

end Founded

/-- What a search finds is a derivation of the target, and its cost the depth of the target. -/
theorem derives_of_find {table : DistanceTable} {d : Derivation} {cost n : Nat}
    (hsource : source.Lists formulas) (ht : target ∉ known)
    (hfind : find source settings table known target = .ok (.found d cost n)) :
    d.Derives formulas known target cost := by
  obtain ⟨h, s, e, rest, -, htarget, hreach, harrived, rfl, rfl⟩ := find_eq_found ht hfind
  have hs : Founded formulas known s := founded_start.reached hsource hreach
  have hdepth : s.depths[target]? = some e.depth := by
    have hlive := harrived.live
    simp only [isStale, Bool.or_eq_false_iff, bne_eq_false_iff_eq] at hlive
    rw [← htarget, ← harrived.target]
    exact hlive.2
  exact hs.derives (hs.origin target (Std.TreeMap.mem_iff_isSome_getElem?.mpr (by simp [hdepth])) ht) hdepth

/-- **What is found derives the target.**  Whatever table of distances guides the search, and whatever its
budget: the steps found in a catalogue apply formulas of the catalogue to what is known or found before, find
nothing twice, nothing known and nothing in vain, and end with the target, whose depth along them is the
cost. -/
theorem derives_of_find_catalogue {c : Catalogue} {table : DistanceTable} {d : Derivation} {cost n : Nat}
    (hc : c.Grown) (ht : target ∉ known)
    (hfind : find c.source settings table known target = .ok (.found d cost n)) :
    d.Derives c.allFormulas known target cost :=
  derives_of_find hc.coherent.lists ht hfind

/-- From mass, time and velocity the force is found by way of the acceleration, with no table at all. -/
theorem derives_force :
    find Catalogue.mechanics.source {} .empty [5, 2, 4] 1 =
      .ok (.found [.find 1 "Use formula 2 to find quantity 3" 2 [5, 4] 3,
        .find 2 "Use formula 1 to find quantity 1" 1 [2, 3] 1] 2 4) ∧
    Derivation.Derives Catalogue.mechanics.allFormulas [5, 2, 4] 1 2
      [.find 1 "Use formula 2 to find quantity 3" 2 [5, 4] 3,
        .find 2 "Use formula 1 to find quantity 1" 1 [2, 3] 1] := by
  have hfind : find Catalogue.mechanics.source {} .empty [5, 2, 4] 1 =
      .ok (.found [.find 1 "Use formula 2 to find quantity 3" 2 [5, 4] 3,
        .find 2 "Use formula 1 to find quantity 1" 1 [2, 3] 1] 2 4) :=
    find_eq_of_runFor (n := 9) (by decide) rfl rfl
  exact ⟨hfind, derives_of_find_catalogue Catalogue.grown_mechanics (by decide) hfind⟩

end FormulaNet.Search

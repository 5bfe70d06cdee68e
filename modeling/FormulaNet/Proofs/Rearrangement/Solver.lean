import FormulaNet.Proofs.Rearrangement.Chain
import FormulaNet.Proofs.Expr.Parser
import Mathlib.Data.List.Nodup

/-!
# The solver's answers solve

An answer of the solver for an arithmetic formula, read over exact scalars, makes the formula hold: once the
target is bound to the answer, the sides of the formula that have values have the same one.  The solver
evaluates with the target unbound, so a solution that still holds the target has no value, and by
`solveFor_or_contains` the solution is the symbolic one.
-/

namespace FormulaNet

open Notation (countEquals)
open Scalar (Exact)

/-! ## Bindings -/

namespace Expr

variable {ν : Type} {env env' : Bindings ν} {s : String} {x : ν}

theorem mem_of_lookup (h : env.lookup s = some x) : (s, x) ∈ env := by
  obtain ⟨before, after, rfl, -⟩ := List.lookup_eq_some_iff.mp h
  simp

/-- With distinct symbols there is one value for each. -/
theorem lookup_of_mem (hnodup : (env.map Prod.fst).Nodup) (h : (s, x) ∈ env) : env.lookup s = some x := by
  obtain ⟨before, after, rfl⟩ := List.append_of_mem h
  refine List.lookup_eq_some_iff.mpr ⟨before, after, rfl, fun p hp ↦ ?_⟩
  rw [List.map_append, List.map_cons, List.nodup_append] at hnodup
  exact bne_iff_ne.mpr (Ne.symm (hnodup.2.2 _ (List.mem_map_of_mem hp) _ List.mem_cons_self))

/-- More bindings of distinct symbols keep the values of those before, and that of `pi` unless they bind
it. -/
theorem symbolValue_mono [Scalar ν] (hnodup : (env'.map Prod.fst).Nodup) (hpi : "pi" ∉ env'.map Prod.fst)
    (hsub : ∀ p ∈ env, p ∈ env') (h : symbolValue env s = .ok x) : symbolValue env' s = .ok x := by
  unfold symbolValue at h ⊢
  cases hs : env.lookup s with
  | some y =>
      rw [hs] at h
      cases h
      rw [lookup_of_mem hnodup (hsub _ (mem_of_lookup hs))]
  | none =>
      rw [hs] at h
      dsimp only at h
      split at h
      · next hname =>
        subst hname
        cases h
        rw [List.lookup_eq_none_iff.mpr fun p hp ↦ ?_]
        · exact if_pos rfl
        · exact bne_iff_ne.mpr fun hp' ↦ hpi (hp' ▸ List.mem_map_of_mem hp)
      · cases h

end Expr

namespace Solver

open FormulaNet.Expr

variable {ν : Type} {f : LoadedFormula ν} {target : Quantity} {values : ValueTable ν} {v : ν}

/-- The symbols of a formula's quantities and constants, in plain notation. -/
def symbols (f : LoadedFormula ν) : List String :=
  f.quantities.map (Notation.normalize ·.symbol) ++ f.constants.map (Notation.normalize ·.symbol)

/-- What the symbols of a formula are bound to under a table of values. -/
def assignment (f : LoadedFormula ν) (values : ValueTable ν) : Bindings ν :=
  f.quantities.filterMap (fun q ↦ values[q.id]?.map (Notation.normalize q.symbol, ·)) ++
    f.constants.map fun c ↦ (Notation.normalize c.symbol, c.value)

/-- An assignment binds each symbol at most once. -/
theorem keys_assignment_sublist (f : LoadedFormula ν) (values : ValueTable ν) :
    ((assignment f values).map Prod.fst).Sublist (symbols f) := by
  rw [assignment, symbols, List.map_append, List.map_map]
  refine List.Sublist.append ?_ (List.Sublist.refl _)
  induction f.quantities with
  | nil => exact List.Sublist.refl _
  | cons q qs ih =>
      rw [List.filterMap_cons, List.map_cons]
      cases values[q.id]? with
      | none => exact ih.cons _
      | some x => exact ih.cons_cons _

theorem mem_assignment {s : String} {x : ν} :
    (s, x) ∈ assignment f values ↔
      (∃ q ∈ f.quantities, values[q.id]? = some x ∧ Notation.normalize q.symbol = s) ∨
        ∃ c ∈ f.constants, Notation.normalize c.symbol = s ∧ c.value = x := by
  simp only [assignment, List.mem_append, List.mem_filterMap, Option.map_eq_some_iff, List.mem_map,
    Prod.mk.injEq]
  constructor
  · rintro (⟨q, hq, y, hy, hs, rfl⟩ | h)
    · exact .inl ⟨q, hq, hy, hs⟩
    · exact .inr h
  · rintro (⟨q, hq, hy, hs⟩ | h)
    · exact .inl ⟨q, hq, x, hy, hs, rfl⟩
    · exact .inr h

/-- The solver binds the other quantities to their values. -/
theorem mem_of_bindInputs {id : QuantityId} {qs : List Quantity} {env env' : Bindings ν} {s : String} {x : ν}
    (h : bindInputs id values qs env = .ok env') (hmem : (s, x) ∈ env') :
    (s, x) ∈ env ∨ ∃ q ∈ qs, q.id ≠ id ∧ values[q.id]? = some x ∧ Notation.normalize q.symbol = s := by
  induction qs generalizing env with
  | nil =>
      cases h
      exact .inl hmem
  | cons q qs ih =>
      unfold bindInputs at h
      split at h
      · rcases ih h with hin | ⟨r, hr, hspec⟩
        · exact .inl hin
        · exact .inr ⟨r, List.mem_cons_of_mem q hr, hspec⟩
      · next hne =>
        split at h
        · next y hy =>
          rcases ih h with hin | ⟨r, hr, hspec⟩
          · rcases List.mem_cons.mp hin with heq | hin
            · cases heq
              exact .inr ⟨q, List.mem_cons_self, hne, hy, rfl⟩
            · exact .inl hin
          · exact .inr ⟨r, List.mem_cons_of_mem q hr, hspec⟩
        · cases h

theorem mem_of_bindConstants {constants : List (Constant ν)} {env : Bindings ν} {s : String} {x : ν}
    (hmem : (s, x) ∈ bindConstants constants env) :
    (s, x) ∈ env ∨ ∃ c ∈ constants, Notation.normalize c.symbol = s ∧ c.value = x := by
  induction constants generalizing env with
  | nil => exact .inl hmem
  | cons c constants ih =>
      rcases ih hmem with hin | ⟨d, hd, hspec⟩
      · rcases List.mem_cons.mp hin with heq | hin
        · cases heq
          exact .inr ⟨c, List.mem_cons_self, rfl, rfl⟩
        · exact .inl hin
      · exact .inr ⟨d, List.mem_cons_of_mem c hd, hspec⟩

/-- What the solver binds: constants, and the other quantities. -/
theorem mem_of_bindConstants_bindInputs {env : Bindings ν} {s : String} {x : ν}
    (h : bindInputs target.id values f.quantities [] = .ok env)
    (hmem : (s, x) ∈ bindConstants f.constants env) :
    (∃ q ∈ f.quantities, q.id ≠ target.id ∧ values[q.id]? = some x ∧ Notation.normalize q.symbol = s) ∨
      ∃ c ∈ f.constants, Notation.normalize c.symbol = s ∧ c.value = x := by
  rcases mem_of_bindConstants hmem with hin | hc
  · exact .inl ((mem_of_bindInputs h hin).resolve_left List.not_mem_nil)
  · exact .inr hc

/-- Every binding of the solver is one of the assignment that has the target too. -/
theorem mem_assignment_of_bindInputs {env : Bindings ν}
    (h : bindInputs target.id values f.quantities [] = .ok env) (v : ν) :
    ∀ p ∈ bindConstants f.constants env, p ∈ assignment f (values.insert target.id v) := by
  rintro ⟨s, x⟩ hp
  rw [mem_assignment]
  rcases mem_of_bindConstants_bindInputs h hp with ⟨q, hq, hne, hx, hs⟩ | hc
  · left
    refine ⟨q, hq, ?_, hs⟩
    rw [Std.TreeMap.getElem?_insert, if_neg ?_]
    · exact hx
    · rw [Std.LawfulEqCmp.compare_eq_iff_eq]
      exact Ne.symm hne
  · exact .inr hc

/-- The solver leaves the target unbound. -/
theorem lookup_target_eq_none {env : Bindings ν} (hnodup : (symbols f).Nodup)
    (htarget : target ∈ f.quantities) (h : bindInputs target.id values f.quantities [] = .ok env) :
    (bindConstants f.constants env).lookup (Notation.normalize target.symbol) = none := by
  rw [Option.eq_none_iff_forall_ne_some]
  intro x hx
  obtain ⟨hquantities, -, hapart⟩ := List.nodup_append.mp hnodup
  rcases mem_of_bindConstants_bindInputs h (mem_of_lookup hx) with ⟨q, hq, hne, -, hs⟩ | ⟨c, hc, hs, -⟩
  · exact hne (congrArg Quantity.id (List.inj_on_of_nodup_map hquantities hq htarget hs))
  · exact hapart _ (List.mem_map_of_mem htarget) _ (List.mem_map_of_mem hc) hs.symm

/-- So nothing that holds the target has a value for the solver. -/
theorem count_target_eq_zero [Scalar ν] {env : Bindings ν} {e : Expr ν} (hnodup : (symbols f).Nodup)
    (hpi : "pi" ∉ symbols f) (htarget : target ∈ f.quantities)
    (h : bindInputs target.id values f.quantities [] = .ok env)
    (he : rawValue (bindConstants f.constants env) e = .ok v) :
    e.count (Notation.normalize target.symbol) = 0 := by
  by_contra hne
  obtain ⟨z, hz⟩ := exists_symbolValue he hne
  have hname : Notation.normalize target.symbol ≠ "pi" := by
    intro hname
    apply hpi
    rw [← hname]
    exact List.mem_append_left _ (List.mem_map_of_mem htarget)
  rw [symbolValue, lookup_target_eq_none hnodup htarget h] at hz
  dsimp only at hz
  rw [if_neg hname] at hz
  cases hz

/-! ## Answers -/

section

variable [Scalar ν]

/-- What it takes for the solver to have a value for the target. -/
theorem targetValue_eq_ok_iff {chain : List (Strategy ν)} :
    targetValue chain f target values = .ok v ↔
      countEquals (Notation.normalize f.formula.expression) = 1 ∧
        ∃ env, bindInputs target.id values f.quantities [] = .ok env ∧
          ∃ e, solution chain f target = .ok e ∧ e.value (bindConstants f.constants env) = .ok v := by
  unfold targetValue
  split
  · next hcount => simp [hcount]
  · next hcount =>
    rw [not_not] at hcount
    simp only [bind_eq_ok_iff, hcount, true_and]

/-- The solver answers with the value of the target. -/
theorem solve_fst {chain : List (Strategy ν)} :
    (solve chain f target values).1 = targetValue chain f target values := by
  unfold solve
  cases targetValue chain f target values <;> rfl

/-- The sides of a formula that parses are plain if they are arithmetic. -/
theorem plain_of_parse {vocabulary : Vocabulary} {text : String} {q : Equation ν}
    (h : Equation.parse vocabulary text = .ok q) (hl : q.lhs.Arithmetic) (hr : q.rhs.Arithmetic) :
    q.lhs.Plain ∧ q.rhs.Plain := by
  obtain ⟨ts, hts, hq⟩ := bind_eq_ok_iff.mp h
  have hword : ∀ s, q.lhs.count s ≠ 0 ∨ q.rhs.count s ≠ 0 → Token.IsWord s := by
    intro s hs
    obtain ⟨t, ht, hkind, rfl⟩ := Equation.exists_identifier hq hs
    exact Token.isWord_of_tokenize hts ht hkind
  exact ⟨⟨hl, fun s hs ↦ hword s (.inl hs)⟩, ⟨hr, fun s hs ↦ hword s (.inr hs)⟩⟩

end

/-- **The solver's answers solve.**  If the formula is arithmetic and the solver has a value for the target,
then the sides of the formula have the same value once the target has it, as far as they have values. -/
theorem sides_eq_of_solve [Exact ν] {settings : SolverSettings} {q : Equation ν} {x y : ν}
    (hnodup : (symbols f).Nodup) (hpi : "pi" ∉ symbols f) (htarget : target ∈ f.quantities)
    (hparse : Equation.parse (vocabulary f target) (Notation.normalize f.formula.expression) = .ok q)
    (hl : q.lhs.Arithmetic) (hr : q.rhs.Arithmetic)
    (hsolve : (solve (chain settings) f target values).1 = .ok v)
    (hx : q.lhs.value (assignment f (values.insert target.id v)) = .ok x)
    (hy : q.rhs.value (assignment f (values.insert target.id v)) = .ok y) : x = y := by
  rw [solve_fst] at hsolve
  obtain ⟨-, env, henv, e, hsolution, he⟩ := targetValue_eq_ok_iff.mp hsolve
  rw [value_iff] at he hx hy
  have hsolveFor : q.solveFor (Notation.normalize target.symbol) = .ok e := by
    rw [solution, hparse] at hsolution
    obtain ⟨hpl, hpr⟩ := plain_of_parse hparse hl hr
    have hcount := count_target_eq_zero hnodup hpi htarget henv he
    exact (Strategy.solveFor_or_contains hpl hpr hsolution).resolve_right (not_not.mpr hcount)
  have hkeys := keys_assignment_sublist f (values.insert target.id v)
  have hkeys_nodup := hkeys.nodup hnodup
  have ht : symbolValue (assignment f (values.insert target.id v)) (Notation.normalize target.symbol) =
      .ok v := by
    rw [symbolValue, lookup_of_mem hkeys_nodup (mem_assignment.mpr (.inl ⟨target, htarget, ?_, rfl⟩))]
    exact Std.TreeMap.getElem?_insert_self
  -- with the target bound too, the solution keeps the value that the solver gave it
  have hv : rawValue (assignment f (values.insert target.id v)) e = .ok v := by
    refine rawValue_mono (fun s x _ hs ↦ ?_) he
    exact symbolValue_mono hkeys_nodup (fun h ↦ hpi (hkeys.subset h)) (mem_assignment_of_bindInputs henv v) hs
  exact (Equation.iff_of_solveFor hl hr hx hy ht hsolveFor hv).mpr rfl

/-! ## A formula to solve -/

/-- The acceleration, of catalogues of mechanics. -/
def acceleration : Quantity := { id := 3, name := "acceleration", symbol := "a", unit := "m/s^2" }

def velocity : Quantity := { id := 5, name := "velocity", symbol := "v", unit := "m/s" }

def time : Quantity := { id := 4, name := "time", symbol := "t", unit := "s" }

/-- The formula of bodies that speed up from rest. -/
def speedingUp (ν : Type) : LoadedFormula ν where
  formula := ⟨2, "steady speeding up", "a = v / t", [3, 5, 4], []⟩
  quantities := [acceleration, velocity, time]
  constants := []

/-- A table with a velocity and a time. -/
def readings (v t : ν) : ValueTable ν := (∅ : ValueTable ν).insert 5 v |>.insert 4 t

/-- A table with an acceleration and a velocity. -/
def speeds (a v : ν) : ValueTable ν := (∅ : ValueTable ν).insert 3 a |>.insert 5 v

theorem normalize_speedingUp :
    Notation.normalize "a" = "a" ∧ Notation.normalize "v" = "v" ∧ Notation.normalize "t" = "t" := by
  decide +kernel

theorem symbols_speedingUp : symbols (speedingUp ν) = ["a", "v", "t"] := by
  obtain ⟨ha, hv, ht⟩ := normalize_speedingUp
  simp [symbols, speedingUp, acceleration, velocity, time, ha, hv, ht]

theorem assignment_speedingUp {a t : ν} (ha : values[acceleration.id]? = some a)
    (hv : values[velocity.id]? = some v) (ht : values[time.id]? = some t) :
    assignment (speedingUp ν) values = [("a", a), ("v", v), ("t", t)] := by
  obtain ⟨hna, hnv, hnt⟩ := normalize_speedingUp
  have hsymbols : acceleration.symbol = "a" ∧ velocity.symbol = "v" ∧ time.symbol = "t" := ⟨rfl, rfl, rfl⟩
  simp [assignment, speedingUp, hsymbols, hna, hnv, hnt, ha, hv, ht]

set_option maxRecDepth 20000 in
/-- Whichever of its quantities is asked for, the text of the formula is read alike. -/
theorem parse_speedingUp [Scalar ν] (htarget : target ∈ (speedingUp ν).quantities) :
    Equation.parse (vocabulary (speedingUp ν) target)
        (Notation.normalize (speedingUp ν).formula.expression) =
      .ok (⟨sym "a", sym "v" / sym "t"⟩ : Equation ν) := by
  simp only [speedingUp, List.mem_cons, List.not_mem_nil, or_false] at htarget
  rcases htarget with rfl | rfl | rfl
  all_goals cbv

theorem time_mem_quantities : time ∈ (speedingUp ν).quantities := by simp [speedingUp]

theorem countEquals_speedingUp : countEquals (Notation.normalize (speedingUp ν).formula.expression) = 1 := by
  show countEquals (Notation.normalize "a = v / t") = 1
  decide +kernel

/-- The acceleration is the value of the quotient. -/
theorem targetValue_acceleration [Scalar ν] {t a : ν} :
    targetValue (chain {}) (speedingUp ν) acceleration (readings v t) = .ok a ↔
      (sym "v" / sym "t" : Expr ν).value [("t", t), ("v", v)] = .ok a := by
  obtain ⟨ha, hv, ht⟩ := normalize_speedingUp
  have hsolution : solution (chain {}) (speedingUp ν) acceleration = .ok (sym "v" / sym "t") := by
    rw [solution, parse_speedingUp List.mem_cons_self, show acceleration.symbol = "a" from rfl, ha]
    rfl
  have hinputs : bindInputs acceleration.id (readings v t) (speedingUp ν).quantities [] =
      .ok [("t", t), ("v", v)] := by
    simp [bindInputs, speedingUp, acceleration, velocity, time, readings, Std.TreeMap.getElem_insert, hv, ht]
  rw [targetValue_eq_ok_iff, hsolution]
  simp only [countEquals_speedingUp, hinputs, true_and, Except.ok.injEq, exists_eq_left']
  rfl

/-- The time has to be isolated first, and is the value of the other quotient. -/
theorem targetValue_time [Scalar ν] {a t : ν} :
    targetValue (chain {}) (speedingUp ν) time (speeds a v) = .ok t ↔
      (sym "v" / sym "a" : Expr ν).value [("v", v), ("a", a)] = .ok t := by
  obtain ⟨ha, hv, ht⟩ := normalize_speedingUp
  have hsolution : solution (chain {}) (speedingUp ν) time = .ok (sym "v" / sym "a") := by
    rw [solution, parse_speedingUp time_mem_quantities, show time.symbol = "t" from rfl, ht]
    rfl
  have hinputs : bindInputs time.id (speeds a v) (speedingUp ν).quantities [] = .ok [("v", v), ("a", a)] := by
    simp [bindInputs, speedingUp, acceleration, velocity, time, speeds, Std.TreeMap.getElem_insert, ha, hv]
  rw [targetValue_eq_ok_iff, hsolution]
  simp only [countEquals_speedingUp, hinputs, true_and, Except.ok.injEq, exists_eq_left']
  rfl

/-- With an acceleration of 2 it takes a time of 3 to a velocity of 6. -/
theorem solve_time : (solve (chain {}) (speedingUp ℚ) time (speeds 2 6)).1 = .ok 3 := by
  rw [solve_fst, targetValue_time, value_iff, div_def, rawValue_bin_iff]
  exact ⟨6, 2, rfl, rfl, by norm_num, by norm_num⟩

/-- With the time found for an acceleration and a velocity the sides agree. -/
theorem sides_eq_speedingUp :
    ∃ x y : ℚ, (solve (chain {}) (speedingUp ℚ) time (speeds 2 6)).1 = .ok 3 ∧
      (sym "a" : Expr ℚ).value (assignment (speedingUp ℚ) ((speeds 2 6).insert time.id 3)) = .ok x ∧
      (sym "v" / sym "t" : Expr ℚ).value (assignment (speedingUp ℚ) ((speeds 2 6).insert time.id 3)) = .ok y ∧
      x = y := by
  have hassignment : assignment (speedingUp ℚ) ((speeds 2 6).insert time.id 3) =
      [("a", 2), ("v", 6), ("t", 3)] := assignment_speedingUp rfl rfl rfl
  have hx : (sym "a" : Expr ℚ).value (assignment (speedingUp ℚ) ((speeds 2 6).insert time.id 3)) = .ok 2 := by
    rw [hassignment]
    rfl
  have hy : (sym "v" / sym "t" : Expr ℚ).value
      (assignment (speedingUp ℚ) ((speeds 2 6).insert time.id 3)) = .ok 2 := by
    rw [hassignment, value_iff, div_def, rawValue_bin_iff]
    exact ⟨6, 3, rfl, rfl, by norm_num, by norm_num⟩
  refine ⟨2, 2, solve_time, hx, hy, sides_eq_of_solve ?_ ?_ time_mem_quantities
    (parse_speedingUp time_mem_quantities) trivial ⟨by decide, trivial, trivial⟩ solve_time hx hy⟩
  · rw [symbols_speedingUp]
    decide
  · rw [symbols_speedingUp]
    decide

end Solver

end FormulaNet

import FormulaNet.Proofs.Decimal.Order
import FormulaNet.Settings

/-!
# Balanced forces

Two comparisons of the resultant with the tolerance decide about a problem with forces: the forces balance if
the resultant is less, and the resultant joins the knowns if it is more.  A resultant that is equal to the
tolerance is neither, and so is one that is not a number: it is reported as a net force, and yet it does not
join the knowns.
-/

namespace FormulaNet

open Float.Model (UnpackedFloat)

theorem Settings.isFinite_equilibriumTolerance {s : Settings} (h : s.validate = .ok ()) :
    s.force.equilibriumTolerance.isFinite = true := by
  rw [validate_eq_ok_iff] at h
  unfold problem? at h
  dsimp only at h
  split at h
  · cases h
  · split at h
    · cases h
    · split at h
      · cases h
      · next htolerance =>
        rw [Bool.or_eq_true, not_or] at htolerance
        simpa using htolerance.1

namespace ForceAnalysis

variable {settings : ForceSettings} {knowns : List Known}

/-- The resultant is neither less nor more than the tolerance. -/
def OnTheEdge (settings : ForceSettings) (a : ForceAnalysis) : Prop :=
  (a.resultant.magnitude == settings.equilibriumTolerance) = true ∨ a.resultant.magnitude.isNaN = true

/-- The knowns that are no forces, and after them the resultant unless the analysis says that the forces
balance. -/
def asReported (settings : ForceSettings) (knowns : List Known) (a : ForceAnalysis) : List Known :=
  knowns.filter (!·.isForce) ++ if a.isEquilibrium then [] else [resultantKnown settings a]

theorem isEquilibrium_compose : (compose settings knowns).isEquilibrium = true ↔
    (compose settings knowns).resultant.magnitude < settings.equilibriumTolerance := by
  simp [compose]

theorem substitute_of_any (h : knowns.any Known.isForce = true) :
    substitute settings knowns =
      (knowns.filter (!·.isForce) ++
          if (compose settings knowns).resultant.magnitude > settings.equilibriumTolerance then
            [resultantKnown settings (compose settings knowns)] else [],
        some (compose settings knowns)) := by
  rw [substitute, if_pos h]
  dsimp only
  split
  · rfl
  · rw [List.append_nil]

theorem onTheEdge_iff (h : settings.equilibriumTolerance.isFinite = true) :
    OnTheEdge settings (compose settings knowns) ↔
      (compose settings knowns).isEquilibrium = false ∧
        ¬(compose settings knowns).resultant.magnitude > settings.equilibriumTolerance := by
  have hnumber := Binary64.isNaN_eq_false_of_isFinite h
  rw [← Bool.not_eq_true, isEquilibrium_compose, gt_iff_lt, Binary64.not_lt_and_not_lt_iff, hnumber]
  simp only [Bool.false_eq_true, or_false]
  rfl

/-! ## Nothing -/

/-- A force that pushes with no strength, in no direction. -/
def idle : Known where
  name := "push"
  value := 0
  kind := some Known.forceKind

/-- Settings without a tolerance. -/
def intolerant : Settings where
  force := { equilibriumTolerance := 0 }

/-- Settings without a tolerance, for forces in kilonewtons with a name of its own for the resultant. -/
def kilonewtons : Settings where
  force := { equilibriumTolerance := 0, resultantName := "net force", unit := "kN" }

/-- What is pushed. -/
def mass : Known where
  name := "mass"
  value := 4
  unit := "kg"

/-- Whatever it is multiplied with, nothing is nothing, or not a number. -/
theorem zero_mul_mem (x : Float) : 0 * x ∈ [0, -0, 0 / 0] := by
  have hzero : Binary64.unpacked 0 = .zero .positive := rfl
  change Float.ofModel (.pack (.mul .binary64 (Binary64.unpacked 0) (Binary64.unpacked x))) ∈ _
  rw [hzero, List.mem_cons, List.mem_cons, List.mem_singleton]
  cases Binary64.unpacked x with
  | notANumber => decide
  | infinity => simp only [UnpackedFloat.mul]; decide
  | zero s => cases s <;> decide
  | finite s => cases s <;> simp only [UnpackedFloat.mul] <;> decide

theorem hypot_nothing : ∀ x ∈ [0, -0, 0 / 0], ∀ y ∈ [0, -0, 0 / 0],
    ¬Binary64.hypot (-0 + x) (-0 + y) < 0 ∧ ¬Binary64.hypot (-0 + x) (-0 + y) > 0 := by
  decide +kernel

/-- Without a tolerance the idle force alone is on the edge, whatever else is known. -/
theorem onTheEdge_idle (htolerance : settings.equilibriumTolerance = 0)
    (hforces : knowns.filter Known.isForce = [idle]) : OnTheEdge settings (compose settings knowns) := by
  have hfinite : settings.equilibriumTolerance.isFinite = true := htolerance ▸ rfl
  have hmagnitude := hypot_nothing _ (zero_mul_mem (Direction.byKind none).cos) _
    (zero_mul_mem (Direction.byKind none).sin)
  have hresultant : (compose settings knowns).resultant.magnitude =
      Binary64.hypot (-0 + 0 * (Direction.byKind none).cos) (-0 + 0 * (Direction.byKind none).sin) := by
    rw [compose, hforces]
    rfl
  rw [onTheEdge_iff hfinite, ← Bool.not_eq_true, isEquilibrium_compose, hresultant, htolerance]
  exact hmagnitude

/-! ## The report and the knowns -/

/-- **The knowns that are no forces are kept in their order, and the resultant follows them exactly when the
analysis says that the forces do not balance, but for a resultant that is equal to the tolerance or is not a
number: that is reported as a net force and left out.** -/
theorem substitute_asReported_iff (s : Settings) (hs : s.validate = .ok ()) (knowns : List Known)
    (hforce : knowns.any Known.isForce = true) :
    (substitute s.force knowns).2 = some (compose s.force knowns) ∧
      ((substitute s.force knowns).1 = asReported s.force knowns (compose s.force knowns) ↔
        ¬OnTheEdge s.force (compose s.force knowns)) ∧
      (OnTheEdge s.force (compose s.force knowns) →
        (compose s.force knowns).isEquilibrium = false ∧
          (substitute s.force knowns).1 = knowns.filter (!·.isForce)) := by
  have hedge : OnTheEdge s.force (compose s.force knowns) ↔ _ :=
    onTheEdge_iff (Settings.isFinite_equilibriumTolerance hs)
  rw [substitute_of_any hforce]
  refine ⟨rfl, ?_, fun h ↦ ⟨(hedge.mp h).1, ?_⟩⟩
  · rw [hedge, asReported, List.append_cancel_left_eq, not_and, not_not]
    cases hbalance : (compose s.force knowns).isEquilibrium with
    | true =>
        have hnot : ¬(compose s.force knowns).resultant.magnitude > s.force.equilibriumTolerance :=
          Binary64.not_lt_of_lt (isEquilibrium_compose.mp hbalance)
        simp [hnot]
    | false => simp
  · rw [if_neg (hedge.mp h).2, List.append_nil]

/-- Beside a mass the idle force is reported as a net force, and only the mass is left. -/
theorem substitute_asReported_idle :
    kilonewtons.validate = .ok () ∧ [mass, idle].any Known.isForce = true ∧
      (substitute kilonewtons.force [mass, idle]).2 = some (compose kilonewtons.force [mass, idle]) ∧
      (compose kilonewtons.force [mass, idle]).isEquilibrium = false ∧
      (substitute kilonewtons.force [mass, idle]).1 = [mass] ∧
      (substitute kilonewtons.force [mass, idle]).1 ≠
        asReported kilonewtons.force [mass, idle] (compose kilonewtons.force [mass, idle]) := by
  obtain ⟨hanalysis, hlist, hdropped⟩ := substitute_asReported_iff kilonewtons rfl [mass, idle] rfl
  have hedge : OnTheEdge kilonewtons.force (compose kilonewtons.force [mass, idle]) := onTheEdge_idle rfl rfl
  obtain ⟨hreport, hothers⟩ := hdropped hedge
  exact ⟨rfl, rfl, hanalysis, hreport, hothers, fun h ↦ hlist.mp h hedge⟩

/-- Without a tolerance a force of no size is reported as a net force, and left out. -/
theorem substitute_idle : intolerant.validate = .ok () ∧ (compose intolerant.force [idle]).isEquilibrium = false ∧
    (substitute intolerant.force [idle]).1 = [] := by
  have hedge : OnTheEdge intolerant.force (compose intolerant.force [idle]) := onTheEdge_idle rfl rfl
  obtain ⟨hreport, hsmall⟩ := (onTheEdge_iff rfl).mp hedge
  refine ⟨rfl, hreport, ?_⟩
  rw [substitute_of_any rfl]
  exact if_neg hsmall

end ForceAnalysis

end FormulaNet

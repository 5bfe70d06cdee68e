import FormulaNet.Knowledge.Snapshot
import FormulaNet.Proofs.Json.RoundTrip

/-!
# The text of a snapshot is read back

A record is decoded from the object that it is encoded as, field by field, and the object is read back from
its text.  So nothing of a snapshot is lost or changed in its text: no name, flag, description or list, and
no id that fits 64 bits.  A value is a number of its own: it comes back if its literal denotes it.
-/

namespace FormulaNet

open Json (maxNatural)

namespace Json

variable {α : Type} {encode : α → Json} {decode : Json → Option α} {as : List α}

theorem list?_map (h : ∀ a ∈ as, decode (encode a) = some a) : (array (as.map encode)).list? decode = some as := by
  rw [list?]
  induction as with
  | nil => rfl
  | cons a as ih =>
      obtain ⟨ha, has⟩ := List.forall_mem_cons.mp h
      rw [List.map_cons, List.mapM_cons, ha, ih has]
      rfl

theorem list?_ofNat {ids : List Nat} (h : ∀ id ∈ ids, id ≤ maxNatural) :
    (array (ids.map ofNat)).list? natural? = some ids :=
  list?_map fun id hid ↦ natural?_ofNat (h id hid)

theorem wellFormed_map (h : ∀ a ∈ as, WellFormed (encode a)) : WellFormed (array (as.map encode)) :=
  .array (List.forall_mem_map.mpr h)

theorem wellFormed_ofNat (n : Nat) : WellFormed (ofNat n) := .number (isLiteral_ofNat n)

theorem wellFormed_ofFloat (x : Float) : WellFormed (ofFloat x) := by
  unfold ofFloat
  split
  · next hx => exact .number (isLiteral_json hx)
  · exact .null

end Json

/-! ## Records -/

namespace Quantity

theorem ofJson?_toJson {q : Quantity} (hid : q.id ≤ maxNatural) : ofJson? q.toJson = some q := by
  simp [ofJson?, toJson, Json.fields?, Json.objectFields?, Fields.required, Fields.defaulted, List.lookup,
    Json.natural?_ofNat hid]

theorem wellFormed_toJson (q : Quantity) : Json.WellFormed q.toJson := by
  refine .object ?_
  simp only [List.forall_mem_cons, List.not_mem_nil, false_imp_iff, implies_true, and_true]
  exact ⟨Json.wellFormed_ofNat _, .string _, .string _, .string _, .bool _, .string _⟩

end Quantity

namespace Constant

theorem ofJson?_toJson {c : Constant Float} (hid : c.id ≤ maxNatural)
    (hvalue : (Json.ofFloat c.value).real? = some c.value) : ofJson? c.toJson = some c := by
  simp [ofJson?, toJson, Json.fields?, Json.objectFields?, Fields.required, List.lookup,
    Json.natural?_ofNat hid, hvalue]

theorem wellFormed_toJson (c : Constant Float) : Json.WellFormed c.toJson := by
  refine .object ?_
  simp only [List.forall_mem_cons, List.not_mem_nil, false_imp_iff, implies_true, and_true]
  exact ⟨Json.wellFormed_ofNat _, .string _, .string _, Json.wellFormed_ofFloat _, .string _⟩

end Constant

namespace Formula

theorem ofJson?_toJson {f : Formula} (hid : f.id ≤ maxNatural) (hquantities : ∀ id ∈ f.quantities, id ≤ maxNatural)
    (hconstants : ∀ id ∈ f.constants, id ≤ maxNatural) : ofJson? f.toJson = some f := by
  simp [ofJson?, toJson, Json.fields?, Json.objectFields?, Fields.required, Fields.defaulted, List.lookup,
    Json.natural?_ofNat hid, Json.list?_ofNat hquantities, Json.list?_ofNat hconstants]

theorem wellFormed_toJson (f : Formula) : Json.WellFormed f.toJson := by
  refine .object ?_
  simp only [List.forall_mem_cons, List.not_mem_nil, false_imp_iff, implies_true, and_true]
  have hids : ∀ ids : List Nat, Json.WellFormed (.array (ids.map .ofNat)) := fun ids ↦
    Json.wellFormed_map fun id _ ↦ Json.wellFormed_ofNat id
  exact ⟨Json.wellFormed_ofNat _, .string _, .string _, hids _, hids _⟩

end Formula

/-! ## Snapshots -/

namespace Snapshot

variable {s : Snapshot}

/-- Ids fit 64 bits and values are finite: what else can be kept in memory has no text of its own. -/
structure Exchangeable (s : Snapshot) : Prop where
  quantity_id : ∀ q ∈ s.quantities, q.id ≤ maxNatural
  constant_id : ∀ c ∈ s.constants, c.id ≤ maxNatural
  constant_value : ∀ c ∈ s.constants, c.value.isFinite = true
  formula_id : ∀ f ∈ s.formulas, f.id ≤ maxNatural
  formula_quantities : ∀ f ∈ s.formulas, ∀ id ∈ f.quantities, id ≤ maxNatural
  formula_constants : ∀ f ∈ s.formulas, ∀ id ∈ f.constants, id ≤ maxNatural

theorem wellFormed_toJson (s : Snapshot) : Json.WellFormed s.toJson := by
  refine .object ?_
  simp only [List.forall_mem_cons, List.not_mem_nil, false_imp_iff, implies_true, and_true]
  exact ⟨Json.wellFormed_map fun q _ ↦ q.wellFormed_toJson, Json.wellFormed_map fun c _ ↦ c.wellFormed_toJson,
    Json.wellFormed_map fun f _ ↦ f.wellFormed_toJson⟩

theorem ofJson?_toJson (hs : s.Exchangeable)
    (hvalues : ∀ c ∈ s.constants, (Json.number (Decimal.json c.value)).real? = some c.value) :
    ofJson? s.toJson = some s := by
  have hquantities := Json.list?_map fun q hq ↦ Quantity.ofJson?_toJson (hs.quantity_id q hq)
  have hconstants : (Json.array (s.constants.map Constant.toJson)).list? Constant.ofJson? = some s.constants := by
    refine Json.list?_map fun c hc ↦ Constant.ofJson?_toJson (hs.constant_id c hc) ?_
    rw [Json.ofFloat, if_pos (hs.constant_value c hc)]
    exact hvalues c hc
  have hformulas := Json.list?_map fun f hf ↦
    Formula.ofJson?_toJson (hs.formula_id f hf) (hs.formula_quantities f hf) (hs.formula_constants f hf)
  simp [ofJson?, toJson, Json.fields?, Json.objectFields?, Fields.defaulted, List.lookup, hquantities, hconstants,
    hformulas]

/-- **A snapshot is read back from its text as it is**, if the literals of its values denote them. -/
theorem read_write (hs : s.Exchangeable)
    (hvalues : ∀ c ∈ s.constants, (Json.number (Decimal.json c.value)).real? = some c.value) :
    read s.write = .ok s := by
  have hread : Json.read? s.write = some s.toJson := s.wellFormed_toJson.read?_write (.indented 0)
  rw [read, hread, Option.bind_some, ofJson?_toJson hs hvalues]

/-- Quotes, control characters and letters of any alphabet, the largest id and a value with five decimals. -/
theorem read_write_gravity :
    let s : Snapshot := {
      quantities := [⟨18446744073709551615, "say \"Kraft\" \\ 力", "F\t\x01", "N", true, "\n\x08\x0c\r\x7f 😀"⟩]
      constants := [⟨3, "standard gravity", "g0", 9.80665, "m/s^2"⟩]
      formulas := [⟨2, "weight", "F = m * g0", [4, 18446744073709551615, 4], [3]⟩] }
    s.Exchangeable ∧ (∀ c ∈ s.constants, (Json.number (Decimal.json c.value)).real? = some c.value) ∧
      read s.write = .ok s := by
  intro s
  have hs : s.Exchangeable := by
    constructor <;> decide +kernel
  have hvalues : ∀ c ∈ s.constants, (Json.number (Decimal.json c.value)).real? = some c.value := by
    decide +kernel
  exact ⟨hs, hvalues, read_write hs hvalues⟩

end Snapshot

end FormulaNet

import FormulaNet.Proofs.Decimal.Literal
import FormulaNet.Proofs.Token.Scan

/-!
# The texts of tokens

Every token has a text for its kind (`fits_of_tokenize`).  The text of a number need not be a decimal literal, though:
scanning looks back only to a point, so it takes a second exponent, and a point after an exponent, into a number that
cannot be read.  A number is a literal just if neither comes after its first exponent mark.
-/

namespace FormulaNet.Token

open Text Numeral

variable {c : Char} {cs ds m e : List Char} {pointSeen : Bool} {t : Token}

/-- How a number goes on: with digits, with a point if there has been none, and with exponents, after each of which it
goes on in the same way. -/
inductive Continues : Bool → List Char → Prop
  | stop {pointSeen : Bool} : Continues pointSeen []
  | digit {pointSeen : Bool} {c : Char} {cs : List Char} : c.isDigit = true → Continues pointSeen cs →
      Continues pointSeen (c :: cs)
  | point {cs : List Char} : Continues true cs → Continues false ('.' :: cs)
  | exponent {pointSeen : Bool} {c : Char} {sign cs : List Char} : isExponentMark c = true →
      sign ∈ [[], ['+'], ['-']] → startsWithDigit cs = true → Continues pointSeen cs →
      Continues pointSeen (c :: (sign ++ cs))

theorem startsWithDigit_iff : startsWithDigit cs = true ↔ ∃ c ds, cs = c :: ds ∧ c.isDigit = true := by
  cases cs <;> simp [startsWithDigit]

theorem startsWithDigit_takeNumber (h : startsWithDigit cs = true) :
    startsWithDigit (takeNumber pointSeen cs).1 = true := by
  obtain ⟨c, ds, rfl, hc⟩ := startsWithDigit_iff.mp h
  rw [takeNumber_cons_of_isDigit hc]
  exact hc

theorem continues_takeNumber (pointSeen : Bool) (cs : List Char) :
    Continues pointSeen (takeNumber pointSeen cs).1 := by
  have mark : ∀ {c : Char}, c = 'e' ∨ c = 'E' → isExponentMark c = true := by
    rintro c (rfl | rfl) <;> rfl
  fun_induction takeNumber pointSeen cs with
  | case1 => exact .stop
  | case2 pointSeen c cs hdigit ih => exact .digit hdigit ih
  | case3 pointSeen c cs hdigit hpoint ih =>
      obtain ⟨rfl, rfl⟩ := hpoint
      exact .point ih
  | case4 => exact .stop
  | case5 pointSeen c hdigit hpoint he d ds hd ih =>
      have hmem : ([] : List Char) ∈ [[], ['+'], ['-']] := List.mem_cons_self
      exact .exponent (mark he) hmem (startsWithDigit_takeNumber hd) ih
  | case6 pointSeen c hdigit hpoint he d ds hd hsign ih =>
      have hmem : [d] ∈ [[], ['+'], ['-']] := by
        rcases hsign.1 with rfl | rfl <;> simp
      exact .exponent (mark he) hmem (startsWithDigit_takeNumber hsign.2) ih
  | case7 => exact .stop
  | case8 => exact .stop

/-- The text of a number: it begins with a digit, or with a point before one, and goes on as numbers do. -/
structure IsNumber (cs : List Char) : Prop where
  starts : startsWithDigit cs = true ∨ ∃ ds, cs = '.' :: ds ∧ startsWithDigit ds = true
  continues : Continues false cs

theorem isNumber_of_startsNumber (h : startsNumber c cs = true) :
    IsNumber (c :: (takeNumber (c = '.') cs).1) := by
  rw [startsNumber, Bool.or_eq_true, Bool.and_eq_true, decide_eq_true_iff] at h
  rcases h with hdigit | ⟨rfl, hnext⟩
  · have hpoint : c ≠ '.' := by
      rintro rfl
      exact absurd hdigit (by decide)
    refine ⟨.inl hdigit, .digit hdigit ?_⟩
    simpa [hpoint] using continues_takeNumber false cs
  · exact ⟨.inr ⟨_, rfl, startsWithDigit_takeNumber hnext⟩, .point (continues_takeNumber true cs)⟩

theorem isNumber_of_isDigits (h : isDigits ds = true) : IsNumber ds := by
  have continues : ∀ {ds : List Char}, ds.all Char.isDigit = true → Continues false ds := by
    intro ds hds
    induction ds with
    | nil => exact .stop
    | cons d ds ih =>
        rw [List.all_cons, Bool.and_eq_true] at hds
        exact .digit hds.1 (ih hds.2)
  obtain ⟨c, cs, rfl, hc, hcs⟩ := isDigits_iff.mp h
  exact ⟨.inl hc, .digit hc (continues hcs)⟩

theorem IsNumber.startsLiteral (h : IsNumber cs) : StartsLiteral cs := by
  rcases h.starts with h | ⟨ds, rfl, -⟩
  · obtain ⟨c, ds, rfl, hc⟩ := startsWithDigit_iff.mp h
    exact ⟨c, rfl, .inl hc⟩
  · exact ⟨'.', rfl, .inr rfl⟩

/-! ## Texts and kinds -/

/-- The text of a token is one for its kind. -/
def Fits (t : Token) : Prop :=
  match t.kind with
  | .stop => t.text = ""
  | .number => IsNumber t.text.toList
  | .identifier => t.text ≠ "" ∧ IsWord t.text
  | kind => (kind, t.text) ∈ markTexts

theorem Scanned.fits (h : Scanned t) : t.Fits := by
  have hword : t.kind = .identifier → IsWord t.text := h.isWord
  cases h with
  | stop => rfl
  | number hnumber =>
      rw [Fits, String.toList_ofList]
      exact isNumber_of_startsNumber hnumber
  | word => exact ⟨by simp, hword rfl⟩
  | @mark _ _ _ _ kind _ _ hmark =>
      have hmem := mem_markTexts_of_mark? hmark
      cases kind with
      | stop | number | identifier => simp [markTexts] at hmem
      | _ => exact hmem

theorem Piece.fits {s : String} (hword : IsWord s) (h : Piece s.toList t) : t.Fits := by
  rcases h.kind with hkind | ⟨hkind, hdigits⟩
  · rw [Fits, hkind]
    exact ⟨fun hempty ↦ h.ne_nil (String.toList_eq_nil_iff.mpr hempty), fun c hc ↦ hword c (h.subset hc)⟩
  · rw [Fits, hkind]
    exact isNumber_of_isDigits hdigits

theorem fits_times (n : Nat) : (times n).Fits := by
  have hstar : (Kind.star, "*") ∈ markTexts := by decide
  exact hstar

theorem fits_of_tokenize {v : Vocabulary} {text : String} {ts : List Token} (h : tokenize v text = .ok ts) :
    ∀ t ∈ ts, t.Fits :=
  forall_of_tokenize (fun _ ht ↦ ht.fits) (fun _ _ hword hpiece ↦ hpiece.fits hword) fits_times h

theorem Fits.isNumber (h : t.Fits) (hkind : t.kind = .number) : IsNumber t.text.toList := by
  rwa [Fits, hkind] at h

/-! ## Literals among them -/

/-- After the first exponent mark there is neither a point nor another mark. -/
def ExponentEnds (cs : List Char) : Prop :=
  ∀ c ∈ (cs.dropWhile (!isExponentMark ·)).tail, isExponentMark c = false ∧ c ≠ '.'

instance (cs : List Char) : Decidable (ExponentEnds cs) :=
  List.decidableBAll (fun c ↦ isExponentMark c = false ∧ c ≠ '.') _

theorem isExponentMark_of_isDigit (h : c.isDigit = true) : isExponentMark c = false := by
  by_contra hmark
  rw [Bool.not_eq_false, isExponentMark, Bool.or_eq_true, decide_eq_true_iff, decide_eq_true_iff] at hmark
  rcases hmark with rfl | rfl <;> exact absurd h (by decide)

theorem ne_point_of_isDigit (h : c.isDigit = true) : c ≠ '.' := by
  rintro rfl
  exact absurd h (by decide)

/-- The mantissa has no mark, so the first one begins what comes after it. -/
theorem exponentEnds_append_iff (hm : ∀ c ∈ m, isExponentMark c = false)
    (he : ∀ c ∈ e.head?, isExponentMark c = true) :
    ExponentEnds (m ++ e) ↔ ∀ c ∈ e.tail, isExponentMark c = false ∧ c ≠ '.' := by
  have hdrop : (m ++ e).dropWhile (!isExponentMark ·) = e := by
    rw [List.dropWhile_append_of_pos fun c hc ↦ by simp [hm c hc]]
    cases e with
    | nil => rfl
    | cons c e => exact List.dropWhile_cons_of_neg (by simp [he c rfl])
  rw [ExponentEnds, hdrop]

theorem isExponentMark_of_isMantissa (h : IsMantissa m) (hc : c ∈ m) : isExponentMark c = false := by
  have digits : ∀ {ds : List Char}, ds.all Char.isDigit = true → c ∈ ds → isExponentMark c = false :=
    fun hds hc ↦ isExponentMark_of_isDigit (List.all_eq_true.mp hds c hc)
  cases h with
  | whole hds =>
      rw [isDigits, Bool.and_eq_true] at hds
      exact digits hds.2 hc
  | point hds hfs _ =>
      rcases List.mem_append.mp hc with hc | hc
      · exact digits hds hc
      · rcases List.mem_cons.mp hc with rfl | hc
        · rfl
        · exact digits hfs hc

theorem exponentEnds_of_isDecimal (h : IsDecimal cs) : ExponentEnds cs := by
  cases h with
  | mantissa hm =>
      have hends := exponentEnds_append_iff (e := []) (fun _ ↦ isExponentMark_of_isMantissa hm) nofun
      rw [List.append_nil] at hends
      exact hends.mpr nofun
  | scaled hm he =>
      cases he with
      | intro hmark hsign hds =>
          refine (exponentEnds_append_iff (fun _ ↦ isExponentMark_of_isMantissa hm) ?_).mpr fun c hc ↦ ?_
          · rintro c ⟨rfl⟩
            exact hmark
          · rcases List.mem_append.mp hc with hc | hc
            · simp only [List.mem_cons, List.not_mem_nil, or_false] at hsign
              rcases hsign with rfl | rfl | rfl
              · cases hc
              all_goals
                obtain rfl := List.mem_singleton.mp hc
                decide
            · rw [isDigits, Bool.and_eq_true] at hds
              have hdigit := List.all_eq_true.mp hds.2 c hc
              exact ⟨isExponentMark_of_isDigit hdigit, ne_point_of_isDigit hdigit⟩

/-- Up to the first mark there are digits, and a point at most if there was none before. -/
theorem Continues.exists_split (h : Continues pointSeen cs) : ∃ m e, cs = m ++ e ∧
    (m.all Char.isDigit = true ∨ pointSeen = false ∧ ∃ ws fs, m = ws ++ '.' :: fs ∧
      ws.all Char.isDigit = true ∧ fs.all Char.isDigit = true) ∧
    (e = [] ∨ ∃ c sign ds, e = c :: (sign ++ ds) ∧ isExponentMark c = true ∧ sign ∈ [[], ['+'], ['-']] ∧
      startsWithDigit ds = true ∧ ∃ pointSeen, Continues pointSeen ds) := by
  induction h with
  | stop => exact ⟨[], [], rfl, .inl rfl, .inl rfl⟩
  | @digit _ c _ hdigit _ ih =>
      obtain ⟨m, e, rfl, hm, he⟩ := ih
      refine ⟨c :: m, e, rfl, hm.imp ?_ ?_, he⟩
      · exact fun hm ↦ by simpa [hdigit] using hm
      · rintro ⟨hseen, ws, fs, rfl, hws, hfs⟩
        exact ⟨hseen, c :: ws, fs, rfl, by simpa [hdigit] using hws, hfs⟩
  | point _ ih =>
      obtain ⟨m, e, rfl, hm, he⟩ := ih
      refine ⟨'.' :: m, e, rfl, .inr ⟨rfl, [], m, rfl, rfl, hm.resolve_right ?_⟩, he⟩
      rintro ⟨hseen, -⟩
      cases hseen
  | exponent hmark hsign hstart hcontinues _ =>
      exact ⟨[], _, rfl, .inl rfl, .inr ⟨_, _, _, rfl, hmark, hsign, hstart, _, hcontinues⟩⟩

theorem Continues.all_isDigit (h : Continues pointSeen cs)
    (hends : ∀ c ∈ cs, isExponentMark c = false ∧ c ≠ '.') : cs.all Char.isDigit = true := by
  induction h with
  | stop => rfl
  | digit hdigit _ ih =>
      rw [List.all_cons, hdigit, Bool.true_and]
      exact ih fun c hc ↦ hends c (List.mem_cons_of_mem _ hc)
  | point => exact absurd rfl (hends '.' List.mem_cons_self).2
  | exponent hmark =>
      rw [(hends _ List.mem_cons_self).1] at hmark
      cases hmark

/-- Some digit comes before the first mark. -/
theorem IsNumber.exists_digit (h : IsNumber (m ++ e)) (he : ∀ c ∈ e.head?, isExponentMark c = true) :
    ∃ c ∈ m, c.isDigit = true := by
  have hmark : startsWithDigit e = false := by
    by_contra hstart
    obtain ⟨c, ds, rfl, hc⟩ := startsWithDigit_iff.mp (Bool.not_eq_false _ ▸ hstart)
    exact absurd (he c rfl) (by simp [isExponentMark_of_isDigit hc])
  rcases h.starts with hstart | ⟨ds, hcs, hstart⟩
  · cases m with
    | nil =>
        rw [List.nil_append, hmark] at hstart
        cases hstart
    | cons c m => exact ⟨c, List.mem_cons_self, hstart⟩
  · cases m with
    | nil => exact absurd (he '.' (by rw [← List.nil_append e, hcs]; rfl)) (by decide)
    | cons c m =>
        rw [List.cons_append, List.cons.injEq] at hcs
        obtain ⟨rfl, rfl⟩ := hcs
        cases m with
        | nil =>
            rw [List.nil_append, hmark] at hstart
            cases hstart
        | cons d m => exact ⟨d, by simp, hstart⟩

/-- **A number is a literal unless it goes on after its exponent.** -/
theorem IsNumber.isDecimal_iff (h : IsNumber cs) : IsDecimal cs ↔ ExponentEnds cs := by
  refine ⟨exponentEnds_of_isDecimal, fun hends ↦ ?_⟩
  obtain ⟨m, e, rfl, hm, he⟩ := h.continues.exists_split
  have hmark : ∀ c ∈ e.head?, isExponentMark c = true := by
    rcases he with rfl | ⟨c, sign, ds, rfl, hmark, -⟩
    · nofun
    · rintro d ⟨rfl⟩
      exact hmark
  obtain ⟨d, hd, hdigit⟩ := h.exists_digit hmark
  have hmantissa : IsMantissa m := by
    rcases hm with hm | ⟨-, ws, fs, rfl, hws, hfs⟩
    · exact .whole (by simpa [isDigits, hm] using List.ne_nil_of_mem hd)
    · refine .point hws hfs fun hnil ↦ ?_
      obtain ⟨rfl, rfl⟩ := List.append_eq_nil_iff.mp hnil
      exact ne_point_of_isDigit hdigit (List.mem_singleton.mp hd)
  rcases he with rfl | ⟨c, sign, ds, rfl, hc, hsign, hstart, _, hcontinues⟩
  · rw [List.append_nil]
    exact .mantissa hmantissa
  · have hafter := (exponentEnds_append_iff (fun _ ↦ isExponentMark_of_isMantissa hmantissa) hmark).mp hends
    have hdigits := hcontinues.all_isDigit fun x hx ↦ hafter x (List.mem_append_right sign hx)
    obtain ⟨x, xs, rfl, -⟩ := startsWithDigit_iff.mp hstart
    exact .scaled hmantissa (.intro hc hsign (by simpa [isDigits] using hdigits))

end FormulaNet.Token

import Mathlib.Algebra.Field.Basic
import Mathlib.Tactic.Common
import FormulaNet.Expr.Basic

/-!
# Readings

Exact arithmetic is that of a field, but what a power or a call is can be read in more ways than one, and it
need not have a value everywhere.  A `Reading` says what powers and functions are where they are defined.  Its
scalars are the numbers of the field and one more, which is the result of whatever is not defined and which
no operation makes a number of again.  So an expression means a number only if each of its parts does.
-/

namespace FormulaNet

/-- What powers, functions and `pi` are over a field.  A first power is its base. -/
structure Reading (K : Type) [Field K] where
  power? : K → K → Option K
  call? : Function → K → Option K
  pi : K
  power?_one : ∀ x, power? x 1 = some x

namespace Reading

variable {K : Type} [Field K]

/-- The scalars of a reading. -/
inductive Number (R : Reading K) : Type
  | of (x : K)
  | undefined

variable {R : Reading K} {a b : R.Number} {x y z : K}

namespace Number

def ofOption : Option K → R.Number
  | some x => of x
  | none => undefined

/-- A partial operation, on scalars. -/
def lift (f : K → K → Option K) : R.Number → R.Number → R.Number
  | of x, of y => ofOption (f x y)
  | _, _ => undefined

theorem ofOption_eq_of_iff {o : Option K} : (ofOption o : R.Number) = of z ↔ o = some z := by
  cases o <;> simp [ofOption]

theorem lift_eq_of_iff {f : K → K → Option K} :
    lift f a b = of z ↔ ∃ x y, a = of x ∧ b = of y ∧ f x y = some z := by
  cases a <;> cases b <;> simp [lift, ofOption_eq_of_iff]

end Number

variable [DecidableEq K]

/-- The value of an operation, if it has one. -/
def operate? (R : Reading K) (op : Operator) (x y : K) : Option K :=
  match op with
  | .add => some (x + y)
  | .sub => some (x - y)
  | .mul => some (x * y)
  | .div => if y = 0 then none else some (x / y)
  | .pow => R.power? x y

theorem operate?_div_eq_some_iff : R.operate? .div x y = some z ↔ y ≠ 0 ∧ x / y = z :=
  Option.ite_none_left_eq_some.trans (and_congr_right fun _ ↦ by rw [Option.some.injEq])

/-- Numbers of a field are not written in digits; the texts only tell whether there is one. -/
instance : Scalar R.Number where
  add := Number.lift (R.operate? .add)
  sub := Number.lift (R.operate? .sub)
  mul := Number.lift (R.operate? .mul)
  div := Number.lift (R.operate? .div)
  neg
    | .of x => .of (-x)
    | .undefined => .undefined
  pow := Number.lift (R.operate? .pow)
  apply f
    | .of x => .ofOption (R.call? f x)
    | .undefined => .undefined
  pi := .of R.pi
  decimal digits exponent := .of (digits * (10 : Nat) ^ exponent)
  infinity? := some .undefined
  undefined? := some .undefined
  same
    | .of x, .of y => decide (x = y)
    | _, _ => false
  isNegative _ := false
  isFinite
    | .of _ => true
    | .undefined => false
  isUndefined
    | .of _ => false
    | .undefined => true
  text
    | .of _ => "defined"
    | .undefined => "undefined"

namespace Number

theorem neg_of (x : K) : -(of x : R.Number) = of (-x) := rfl

theorem neg_eq_of_iff : -a = of z ↔ a = of (-z) := by
  cases a with
  | of x => simp [neg_of, neg_eq_iff_eq_neg]
  | undefined => exact iff_of_false nofun nofun

theorem div_eq_of_iff : a / b = of z ↔ ∃ x y, a = of x ∧ b = of y ∧ R.operate? .div x y = some z :=
  lift_eq_of_iff

theorem ofNat_eq (n : Nat) : (Scalar.ofNat n : R.Number) = of (n : K) := by
  change of ((n : K) * (10 : Nat) ^ (0 : Int)) = of (n : K)
  rw [zpow_zero, mul_one]

@[simp] theorem ofNat_zero : (Scalar.ofNat 0 : R.Number) = of 0 := by rw [ofNat_eq, Nat.cast_zero]

@[simp] theorem ofNat_one : (Scalar.ofNat 1 : R.Number) = of 1 := by rw [ofNat_eq, Nat.cast_one]

@[simp] theorem same_of_iff : Scalar.same a (of y) = true ↔ a = of y := by
  cases a with
  | of x => simp [Scalar.same]
  | undefined => exact iff_of_false nofun nofun

@[simp] theorem isFinite_of : Scalar.isFinite (of x : R.Number) = true := rfl

theorem isFinite_iff : Scalar.isFinite a = true ↔ ∃ x, a = of x := by
  cases a with
  | of x => simp
  | undefined => exact iff_of_false nofun nofun

theorem apply_eq_of_iff {f : Function} : Scalar.apply f a = of z ↔ ∃ x, a = of x ∧ R.call? f x = some z := by
  cases a with
  | of x => simp [Scalar.apply, ofOption_eq_of_iff]
  | undefined => exact iff_of_false nofun nofun

end Number

end Reading

end FormulaNet

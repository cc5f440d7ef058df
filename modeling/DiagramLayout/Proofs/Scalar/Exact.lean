import DiagramLayout.Scalar
import Mathlib.Algebra.Order.Field.Basic
import Mathlib.Algebra.Order.Ring.Rat
import Mathlib.Data.Rat.Cast.Lemmas
import Mathlib.Tactic.NormNum

/-!
# Exact arithmetic

Scalars whose operations obey the laws of algebra. The elementary functions have no law here: they
are any functions.
-/

namespace DiagramLayout

/-- The scalars of a commutative ring. Order and division are any functions. -/
class RingScalar (α : Type) extends Scalar α, CommRing α where
  zero_literal : (0.0 : α) = 0
  one_literal : (1.0 : α) = 1
  same_iff (a b : α) : same a b = true ↔ a = b

/-- The scalars of an ordered field. Nothing in it is infinite, and no integer is too large. -/
class FieldScalar (α : Type) extends RingScalar α, Field α, LinearOrder α,
    IsStrictOrderedRing α where
  literal_eq (mantissa : Nat) (negative : Bool) (exponent : Nat) :
    (toScalar.toOfScientific.ofScientific mantissa negative exponent : α) =
      ((OfScientific.ofScientific mantissa negative exponent : ℚ) : α)
  less_iff (a b : α) : less a b = true ↔ a < b
  atMost_iff (a b : α) : atMost a b = true ↔ a ≤ b
  abs_eq (a : α) : Scalar.abs a = |a|
  isFinite_eq (a : α) : isFinite a = true
  ofInt?_eq (n : Int) : ofInt? n = some (n : α)

/-- An arithmetic is exact when it is that of an ordered field. -/
def Scalar.IsExact (α : Type) [scalar : Scalar α] : Prop :=
  ∃ field : FieldScalar α, field.toRingScalar.toScalar = scalar

theorem Scalar.isExact_of_field {α : Type} [field : FieldScalar α] : Scalar.IsExact α := ⟨field, rfl⟩

-- Where a scalar is in a ring its sums and products are read as the ring's.
attribute [instance (low)] Scalar.toAdd Scalar.toSub Scalar.toMul Scalar.toDiv Scalar.toNeg

attribute [simp] RingScalar.zero_literal RingScalar.one_literal RingScalar.same_iff
attribute [simp] FieldScalar.less_iff FieldScalar.atMost_iff FieldScalar.abs_eq
attribute [simp] FieldScalar.isFinite_eq

@[simp] theorem RingScalar.same_eq_false_iff {α : Type} [RingScalar α] {a b : α} :
    Scalar.same a b = false ↔ a ≠ b := by
  rw [ne_eq, ← same_iff a b, Bool.not_eq_true]

namespace Scalar

variable {α : Type} [FieldScalar α]

@[simp] theorem two_literal :
    (@OfScientific.ofScientific α Scalar.toOfScientific 20 true 1) = 2 := by
  have h : (OfScientific.ofScientific 20 true 1 : ℚ) = 2 := by norm_num
  rw [FieldScalar.literal_eq, h, Rat.cast_ofNat]

@[simp] theorem maximum_eq (a b : α) : maximum a b = max a b := by
  rcases lt_or_ge b a with h | h
  · simp [maximum, h, max_eq_left h.le]
  · simp [maximum, h, not_lt.mpr h]

@[simp] theorem minimum_eq (a b : α) : minimum a b = min a b := by
  rcases lt_or_ge a b with h | h
  · simp [minimum, h, min_eq_left h.le]
  · simp [minimum, h, not_lt.mpr h]

theorem sign_eq_one {a : α} (h : 0 < a) : sign a = 1 := by simp [sign, h]

theorem sign_eq_neg_one {a : α} (h : a < 0) : sign a = -1 := by simp [sign, h, h.not_gt]

end Scalar

/-- The rationals, with the identity for every elementary function. -/
instance : FieldScalar ℚ where
  __ := (inferInstance : Field ℚ)
  __ := (inferInstance : LinearOrder ℚ)
  __ := (inferInstance : IsStrictOrderedRing ℚ)
  ofScientific := OfScientific.ofScientific
  less a b := decide (a < b)
  atMost a b := decide (a ≤ b)
  same a b := decide (a = b)
  sqrt := id
  abs a := |a|
  exp := id
  log := id
  sin := id
  cos := id
  isFinite _ := true
  ofInt? n := some n
  ofText? _ := none
  text _ := ""
  zero_literal := (by norm_num : (0.0 : ℚ) = 0)
  one_literal := (by norm_num : (1.0 : ℚ) = 1)
  same_iff a b := by simp
  literal_eq _ _ _ := by simp
  less_iff a b := by simp
  atMost_iff a b := by simp
  abs_eq _ := rfl
  isFinite_eq _ := rfl
  ofInt?_eq _ := rfl

end DiagramLayout

import DiagramLayout.Proofs.Scalar.Exact
import Mathlib.Analysis.Real.Sqrt
import Mathlib.Analysis.SpecialFunctions.Log.Basic
import Mathlib.Analysis.SpecialFunctions.Trigonometric.Basic

namespace DiagramLayout

noncomputable instance : FieldScalar ℝ where
  __ := (inferInstance : Field ℝ)
  __ := (inferInstance : LinearOrder ℝ)
  __ := (inferInstance : IsStrictOrderedRing ℝ)
  ofScientific := OfScientific.ofScientific
  less a b := decide (a < b)
  atMost a b := decide (a ≤ b)
  same a b := decide (a = b)
  sqrt := Real.sqrt
  abs a := |a|
  exp := Real.exp
  log := Real.log
  sin := Real.sin
  cos := Real.cos
  isFinite _ := true
  ofInt? n := some n
  ofText? _ := none
  text _ := ""
  zero_literal := (by norm_num : (0.0 : ℝ) = 0)
  one_literal := (by norm_num : (1.0 : ℝ) = 1)
  same_iff a b := by simp
  literal_eq m s e := (Rat.cast_ofScientific m s e).symm
  less_iff a b := by simp
  atMost_iff a b := by simp
  abs_eq _ := rfl
  isFinite_eq _ := rfl
  ofInt?_eq _ := rfl

end DiagramLayout

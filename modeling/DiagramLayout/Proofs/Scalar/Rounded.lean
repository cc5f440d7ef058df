import DiagramLayout.Proofs.Scalar.Exact
import DiagramLayout.Vec

/-!
# Rounded arithmetic

Some laws of exact arithmetic survive rounding. They are about zero, one and the comparisons.
-/

namespace DiagramLayout

variable {α : Type}

namespace Scalar

/-- A number equal to zero. Doubles have two. -/
def IsZero [Scalar α] (a : α) : Prop := same a 0.0 = true

/-- What arithmetic keeps when its results are rounded to the nearest number: zeros stay zeros, a
finite number minus itself is zero, and a factor above one does not make a positive number less. -/
structure IsRounded (α : Type) [Scalar α] : Prop where
  zero : IsZero (0.0 : α)
  finite {a : α} : IsZero a → isFinite a = true
  add {a b : α} : IsZero a → IsZero b → IsZero (a + b)
  mul {a b : α} : IsZero a → IsZero b → IsZero (a * b)
  sub_self {a : α} : isFinite a = true → IsZero (a - a)
  sqrt {a : α} : IsZero a → IsZero (Scalar.sqrt a)
  less {a b : α} : IsZero a → Scalar.less 0.0 b = true → Scalar.less a b = true
  positive {a b : α} : Scalar.less 0.0 a = true → atMost a b = true → Scalar.less 0.0 b = true
  grows {a b : α} : Scalar.less 0.0 a = true → Scalar.less 1.0 b = true → atMost a (b * a) = true

namespace IsRounded

variable [Scalar α] (laws : IsRounded α) {u v : List α}
include laws

theorem isZero_dot (hu : ∀ a ∈ u, IsZero a) (hv : ∀ b ∈ v, IsZero b) : IsZero (Vec.dot u v) := by
  have hproduct : ∀ p ∈ u.zip v, IsZero (p.1 * p.2) := by
    intro p hp
    exact laws.mul (hu _ (List.of_mem_zip hp).1) (hv _ (List.of_mem_zip hp).2)
  have hfold (ps : List (α × α)) (hps : ∀ p ∈ ps, IsZero (p.1 * p.2)) (a : α) (ha : IsZero a) :
      IsZero (ps.foldl (fun total p => total + p.1 * p.2) a) := by
    induction ps generalizing a with
    | nil => exact ha
    | cons p ps ih =>
      obtain ⟨hp, hps⟩ := List.forall_mem_cons.mp hps
      exact ih hps _ (laws.add ha hp)
  unfold Vec.dot
  split
  · next p heq => exact hproduct p (by simp [heq])
  · exact hfold _ hproduct _ laws.zero

theorem isZero_norm (hv : ∀ a ∈ v, IsZero a) : IsZero (Vec.norm v) := laws.sqrt (laws.isZero_dot hv hv)

theorem isZero_sub_self (hv : ∀ a ∈ v, isFinite a = true) : ∀ d ∈ Vec.sub v v, IsZero d := by
  intro d hd
  rw [Vec.sub, List.zipWith_self, List.mem_map] at hd
  obtain ⟨a, ha, rfl⟩ := hd
  exact laws.sub_self (hv a ha)

end IsRounded

end Scalar

/-- Exact arithmetic rounds nothing. Of the root only the one of zero matters. -/
theorem FieldScalar.isRounded [FieldScalar α] (hsqrt : Scalar.sqrt (0 : α) = 0) :
    Scalar.IsRounded α := by
  constructor <;> simp only [Scalar.IsZero, RingScalar.zero_literal, RingScalar.one_literal,
    RingScalar.same_iff, FieldScalar.less_iff, FieldScalar.atMost_iff, FieldScalar.isFinite_eq]
  · simp
  · rintro a b rfl rfl
    exact add_zero 0
  · rintro a b rfl rfl
    exact mul_zero 0
  · intro a _
    exact sub_self a
  · rintro a rfl
    exact hsqrt
  · rintro a b rfl hb
    exact hb
  · intro a b ha hb
    exact ha.trans_le hb
  · intro a b ha hb
    exact le_mul_of_one_le_left ha.le hb.le

end DiagramLayout

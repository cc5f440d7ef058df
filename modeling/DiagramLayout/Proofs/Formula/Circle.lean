import DiagramLayout.Energy.Compile
import DiagramLayout.Proofs.Outcome
import DiagramLayout.Proofs.Scalar.Real
import Mathlib.Analysis.InnerProductSpace.PiL2
import Mathlib.Analysis.Normed.Module.Ball.Pointwise

namespace DiagramLayout

/-! ## Formulas on numbers -/

namespace Formula

variable {α β δ : Type} [Scalar α]

theorem eval_ofExcept (r : Except Fault β) : (ofExcept r : Formula α β).eval = r := by
  cases r <;> rfl

theorem eval_apply {op : Op} {vs : List (Value α)} {xs : List α}
    (h : List.Forall₂ (fun v x => v.toNumber = .ok x) vs xs) :
    (apply op vs).eval = .ok (.number (op.eval xs)) := by
  simp only [apply, eval, Op.onNumbers, mapM_eq_ok_iff.mpr h]
  rfl

/-- An operation of two operands. -/
theorem eval_apply_two {op : Op} {u v : Value α} {x y : α} (hu : u.toNumber = .ok x)
    (hv : v.toNumber = .ok y) : (apply op [u, v]).eval = .ok (.number (op.eval [x, y])) :=
  eval_apply (.cons hu (.cons hv .nil))

theorem eval_mapM (f : δ → Formula α β) (ds : List δ) :
    (ds.mapM f).eval = ds.mapM fun d => (f d).eval := by
  induction ds with
  | nil => rfl
  | cons d ds ih =>
    simp only [List.mapM_cons, eval_bind, ih]
    rfl

theorem pairsOf_eval {u v : Value α} {us vs : List (Value α)} (hu : u.items = .ok us)
    (hv : v.items = .ok vs) (h : us.length = vs.length) : (pairsOf u v).eval = .ok (us.zip vs) := by
  have hrule : (demand (us.length == vs.length) .vectorLengths : Formula α Unit).eval = .ok () := by
    simp [demand, require, h, eval_ofExcept]
  simp only [pairsOf, eval_bind, itemsOf, eval_ofExcept, hu, hv, ok_bind, hrule]
  rfl

end Formula

/-! ## Points -/

/-- The plane. -/
abbrev Plane : Type := EuclideanSpace ℝ (Fin 2)

/-- A value with two items, which are the coordinates of a point. -/
def Value.IsPoint (v : Value ℝ) (p : Plane) : Prop :=
  ∃ x y, v.items = .ok [x, y] ∧ x.toNumber = .ok (p 0) ∧ y.toNumber = .ok (p 1)

namespace Formula

variable {u v : Value ℝ} {p q : Plane}

theorem subVectors_eval (hu : u.IsPoint p) (hv : v.IsPoint q) :
    (subVectors u v).eval = .ok (.list [.number (p 0 - q 0), .number (p 1 - q 1)]) := by
  obtain ⟨a, b, hu, ha, hb⟩ := hu
  obtain ⟨c, d, hv, hc, hd⟩ := hv
  have hentries : [(a, c), (b, d)].mapM (fun e => (apply .sub [e.1, e.2] : Formula ℝ (Value ℝ)).eval) =
      .ok [.number (p 0 - q 0), .number (p 1 - q 1)] := by
    exact mapM_eq_ok_iff.mpr (.cons (eval_apply_two ha hc) (.cons (eval_apply_two hb hd) .nil))
  simp only [subVectors, eval_bind, pairsOf_eval hu hv rfl, ok_bind, eval_mapM, List.zip_cons_cons,
    List.zip_nil_right, hentries]
  rfl

/-- The length of a vector of two numbers. -/
theorem norm_eval (x y : ℝ) :
    (norm (.list [.number x, .number y])).eval = .ok (.number (Real.sqrt (x ^ 2 + y ^ 2))) := by
  have hsquares : [(.number x : Value ℝ), .number y].mapM (fun a => (apply .square [a]).eval) =
      .ok [.number (x * x), .number (y * y)] :=
    mapM_eq_ok_iff.mpr (.cons (eval_apply (.cons rfl .nil)) (.cons (eval_apply (.cons rfl .nil)) .nil))
  have hsum : (total [(.number (x * x) : Value ℝ), .number (y * y)]).eval =
      .ok (.number (x ^ 2 + y ^ 2)) := by
    change (apply .sum [(.number (x * x) : Value ℝ), .number (y * y)]).eval = _
    rw [eval_apply_two rfl rfl]
    simp [Op.eval, sq]
  simp only [norm, normSquared, eval_bind, itemsOf, eval_ofExcept, Value.items, ok_bind, eval_mapM,
    hsquares, hsum]
  exact eval_apply (.cons rfl .nil)

theorem distance_eval (hu : u.IsPoint p) (hv : v.IsPoint q) :
    (distance u v).eval = .ok (.number (dist p q)) := by
  have hdist : dist p q = Real.sqrt ((p 0 - q 0) ^ 2 + (p 1 - q 1) ^ 2) := by
    simp [EuclideanSpace.dist_eq, Fin.sum_univ_two, Real.dist_eq]
  rw [distance, eval_bind, subVectors_eval hu hv, ok_bind, norm_eval, hdist]

end Formula

/-! ## Placements -/

/-- A circle of the plane. -/
structure Circle where
  center : Plane
  radius : ℝ

/-- Two circles, and a padding between them. -/
structure Circles where
  first : Circle
  second : Circle
  padding : ℝ

/-- The arguments of a term give two circles: their centers, their radii, and the padding or nothing for
none. -/
inductive Circles.Given (c : Circles) : List (Value ℝ) → Prop where
  | plain {p r q s : Value ℝ} : p.IsPoint c.first.center → r.toNumber = .ok c.first.radius →
      q.IsPoint c.second.center → s.toNumber = .ok c.second.radius → c.padding = 0 → Given c [p, r, q, s]
  | padded {p r q s d : Value ℝ} : p.IsPoint c.first.center → r.toNumber = .ok c.first.radius →
      q.IsPoint c.second.center → s.toNumber = .ok c.second.radius → d.toNumber = .ok c.padding →
      Given c [p, r, q, s, d]

/-- The constraints on two circles. -/
inductive Placement where
  /-- The first circle holds the second one, with the padding around that. -/
  | inside
  /-- The circles do not overlap, with the padding around the first one. -/
  | apart

namespace Placement

open Formula

/-- The constraint of the catalog. -/
def constraint : Placement → Constraint
  | inside => .contains
  | apart => .disjoint

/-- The circles have points. -/
def Proper (c : Circles) : Placement → Prop
  | inside => 0 ≤ c.second.radius + c.padding
  | apart => 0 < c.first.radius + c.padding ∧ 0 < c.second.radius

/-- What a constraint says of the circles. -/
def Holds (c : Circles) : Placement → Prop
  | inside => ∀ x : Plane, dist x c.second.center ≤ c.second.radius + c.padding →
      dist x c.first.center ≤ c.first.radius
  | apart => ¬∃ x : Plane, dist x c.first.center < c.first.radius + c.padding ∧
      dist x c.second.center < c.second.radius

/-- By how much a constraint is violated. -/
noncomputable def excess (c : Circles) : Placement → ℝ
  | inside => dist c.first.center c.second.center + c.second.radius - c.first.radius + c.padding
  | apart => c.first.radius + c.second.radius - dist c.first.center c.second.center + c.padding

/-- A constraint with all of its arguments. -/
theorem body_eval {c : Circles} {p r q s d : Value ℝ} (hp : p.IsPoint c.first.center)
    (hr : r.toNumber = .ok c.first.radius) (hq : q.IsPoint c.second.center)
    (hs : s.toNumber = .ok c.second.radius) (hd : d.toNumber = .ok c.padding) (k : Placement) :
    (k.constraint.function.body [p, r, q, s, d]).eval = .ok (.number (k.excess c)) := by
  have hnumber (x : ℝ) : (.number x : Value ℝ).toNumber = .ok x := rfl
  cases k with
  | inside =>
    simp only [constraint, Constraint.function, eval_bind, distance_eval hp hq, ok_bind,
      eval_apply_two (hnumber _) hs, eval_apply_two (hnumber _) hr, eval_apply_two (hnumber _) hd]
    rfl
  | apart =>
    simp only [constraint, Constraint.function, eval_bind, distance_eval hp hq, ok_bind,
      eval_apply_two hr hs, eval_apply_two (hnumber _) (hnumber _), eval_apply_two (hnumber _) hd]
    rfl

/-- A call gives the excess of the constraint. -/
theorem call_eval {c : Circles} {arguments : List (Value ℝ)} (h : c.Given arguments) (k : Placement) :
    (k.constraint.function.call arguments).eval = .ok (.number (k.excess c)) := by
  cases h with
  | plain hp hr hq hs hpadding =>
    have hzero : (.number 0.0 : Value ℝ).toNumber = .ok c.padding := by
      simp [Value.toNumber, hpadding]
    rw [← body_eval hp hr hq hs hzero]
    cases k <;> rfl
  | padded hp hr hq hs hd =>
    rw [← body_eval hp hr hq hs hd]
    cases k <;> rfl

end Placement

/-! ## Circles in one another and apart -/

/-- Away from one point, beyond another one, there are points at every distance. -/
theorem Plane.exists_beyond (p q : Plane) {s : ℝ} (hs : 0 ≤ s) :
    ∃ x : Plane, dist x q = s ∧ dist x p = dist p q + s := by
  obtain ⟨e, he, hdirection⟩ : ∃ e : Plane, ‖e‖ = 1 ∧ q - p = ‖q - p‖ • e := by
    by_cases hsame : q - p = 0
    · exact ⟨EuclideanSpace.single 0 1, by simp, by simp [hsame]⟩
    · have hnorm : ‖q - p‖ ≠ 0 := norm_ne_zero_iff.mpr hsame
      exact ⟨‖q - p‖⁻¹ • (q - p), norm_smul_inv_norm hsame, (smul_inv_smul₀ hnorm _).symm⟩
  refine ⟨q + s • e, ?_, ?_⟩
  · rw [dist_eq_norm, add_sub_cancel_left, norm_smul, he, mul_one, Real.norm_of_nonneg hs]
  · have hsum : q + s • e - p = (‖q - p‖ + s) • e := by
      rw [add_smul, ← hdirection]
      abel
    have hlength : 0 ≤ ‖q - p‖ + s := by positivity
    rw [dist_eq_norm, hsum, norm_smul, he, mul_one, Real.norm_of_nonneg hlength, dist_comm,
      dist_eq_norm]

/-- A disk lies in another one exactly if the farthest of its points does. -/
theorem Plane.disk_inside_iff (p q : Plane) {r s : ℝ} (hs : 0 ≤ s) :
    (∀ x : Plane, dist x q ≤ s → dist x p ≤ r) ↔ dist p q + s ≤ r := by
  constructor
  · intro hinside
    obtain ⟨x, hnear, hfar⟩ := Plane.exists_beyond p q hs
    rw [← hfar]
    exact hinside x hnear.le
  · intro hreach x hx
    have htriangle := dist_triangle_right x p q
    linarith

/-- Open disks meet exactly if their centers are nearer than their radii reach. -/
theorem Plane.disks_apart_iff (p q : Plane) {r s : ℝ} (hr : 0 < r) (hs : 0 < s) :
    (¬∃ x : Plane, dist x p < r ∧ dist x q < s) ↔ r + s ≤ dist p q := by
  rw [← disjoint_ball_ball_iff hr hs, Set.disjoint_left]
  simp only [not_exists, not_and, Metric.mem_ball]

namespace Placement

/-- A constraint is not violated exactly if the circles lie as it says. -/
theorem excess_nonpos_iff {c : Circles} {k : Placement} (proper : k.Proper c) :
    k.excess c ≤ 0 ↔ k.Holds c := by
  cases k with
  | inside =>
    rw [Holds, Plane.disk_inside_iff _ _ proper, excess]
    constructor <;> intro h <;> linarith
  | apart =>
    rw [Holds, Plane.disks_apart_iff _ _ proper.1 proper.2, excess]
    constructor <;> intro h <;> linarith

end Placement

/-! ## Penalties -/

/-- The penalty of a number. -/
theorem penalty_eval (x : ℝ) :
    (Energy.defaultPenalty.call [.number x]).eval = .ok (.number (max x 0 ^ 2)) := by
  have hmax : (Formula.apply .max [(.number x : Value ℝ), .number 0.0]).eval =
      .ok (.number (max x 0)) := by
    rw [Formula.eval_apply_two rfl rfl]
    simp [Op.eval]
  have hsquare : (Formula.apply .square [(.number (max x 0) : Value ℝ)]).eval =
      .ok (.number (max x 0 ^ 2)) := by
    rw [Formula.eval_apply (.cons rfl .nil), sq]
    rfl
  change (penalty (.number x)).eval = _
  rw [penalty, Formula.eval_bind, hmax, ok_bind, hsquare]

theorem penalty_eq_zero_iff (x : ℝ) : max x 0 ^ 2 = 0 ↔ x ≤ 0 := by
  rw [sq_eq_zero_iff, max_eq_right_iff]

end DiagramLayout

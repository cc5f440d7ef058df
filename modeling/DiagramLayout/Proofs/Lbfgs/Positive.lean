import DiagramLayout.Proofs.Lbfgs.Window
import DiagramLayout.Proofs.Vec
import Mathlib.Tactic.Linarith
import Mathlib.Tactic.Positivity

/-!
# Positive estimates

In an ordered field the estimate of the inverse Hessian is symmetric, and positive definite when the
curvatures are positive, so it always descends.

* `Lbfgs.recursion_cons`, `Lbfgs.pairing_recursion_cons`: one pair of the recursion, and what it adds
  to the form of the estimate;
* `Lbfgs.pairing_apply_comm`: the form is symmetric;
* `Lbfgs.Positive`, `Lbfgs.pairing_apply_pos`: pairs whose curvatures make the form positive;
* `Lbfgs.twoLoop_of_positive`: the recursion then has a result, which descends;
* `Lbfgs.Memory.precondition_descends`, `Lbfgs.Memory.precondition_nonneg`,
  `Lbfgs.Memory.precondition_pos`: the direction that a memory gives, whatever it holds.
-/

namespace DiagramLayout.Lbfgs

variable {α : Type} [FieldScalar α]

theorem offset_pos : 0 < (offset : α) := by
  have h : (0 : ℚ) < OfScientific.ofScientific 1 true 11 := by norm_num
  rw [offset, FieldScalar.literal_eq]
  exact_mod_cast h

/-- What is left of a vector when a pair has taken its part off. -/
def Pair.rest (p : Pair α) (q : List α) : List α :=
  Vec.sub q (Vec.scale (p.rho * Vec.dot p.s q) p.y)

theorem Pair.length_rest {n : Nat} {p : Pair α} (hp : p.y.length = n) {q : List α}
    (hq : q.length = n) : (p.rest q).length = n := by simp [rest, hp, hq]

/-- A vector across the states of a pair is left as it is. -/
theorem Pair.rest_eq_self {p : Pair α} {q : List α} (hlength : q.length = p.y.length)
    (h : pairing p.s q = 0) : p.rest q = q := by
  rw [rest, Vec.dot_eq_pairing, h, mul_zero]
  refine eq_of_pairing (by simp [hlength]) fun v _ => ?_
  rw [Vec.pairing_sub (by simp [hlength]), Vec.pairing_scale, zero_mul, sub_zero]

/-- One pair of the recursion, with its two products as pairings. -/
theorem recursion_cons (gamma : α) (p : Pair α) (older : List (Pair α)) (q : List α) :
    recursion gamma (p :: older) q =
      let r := recursion gamma older (p.rest q)
      Vec.add r (Vec.scale (p.rho * pairing p.s q - p.rho * pairing p.y r) p.s) := by
  simp only [recursion, Pair.rest, Vec.dot_eq_pairing]

/-- What the newest pair adds to the form: its reciprocal curvature times the parts of both vectors. -/
theorem pairing_recursion_cons (gamma : α) {n : Nat} {p : Pair α} {older : List (Pair α)}
    (hp : p.s.length = n ∧ p.y.length = n)
    (holder : ∀ p ∈ older, p.s.length = n ∧ p.y.length = n) {q v : List α} (hq : q.length = n)
    (hv : v.length = n) :
    pairing (recursion gamma (p :: older) q) v =
      pairing (recursion gamma older (p.rest q)) (p.rest v) +
        p.rho * (pairing p.s q * pairing p.s v) := by
  have hlength := length_recursion gamma holder (p.length_rest hp.2 hq)
  rw [recursion_cons]
  generalize recursion gamma older (p.rest q) = r at hlength
  rw [Vec.pairing_add (by simp [hlength, hp]), Vec.pairing_scale, pairing_comm r (p.rest v), Pair.rest,
    Vec.pairing_sub (by simp [hv, hp]), Vec.pairing_scale, Vec.dot_eq_pairing, pairing_comm v r]
  ring

/-! ## Symmetry -/

theorem pairing_recursion_comm (gamma : α) {n : Nat} {pairs : List (Pair α)}
    (hfits : ∀ p ∈ pairs, p.s.length = n ∧ p.y.length = n) {q v : List α} (hq : q.length = n)
    (hv : v.length = n) :
    pairing (recursion gamma pairs q) v = pairing q (recursion gamma pairs v) := by
  induction pairs generalizing q v with
  | nil =>
    rw [recursion, recursion, Vec.pairing_scale, pairing_comm q (Vec.scale gamma v), Vec.pairing_scale,
      pairing_comm q]
  | cons p older ih =>
    obtain ⟨hp, holder⟩ := List.forall_mem_cons.mp hfits
    have hrest := ih holder (p.length_rest hp.2 hq) (p.length_rest hp.2 hv)
    rw [pairing_comm q, pairing_recursion_cons gamma hp holder hq hv,
      pairing_recursion_cons gamma hp holder hv hq, hrest, pairing_comm (p.rest q)]
    ring

/-- The form of the estimate is symmetric. -/
theorem pairing_apply_comm {n : Nat} {pairs : List (Pair α)} (hfits : fits n pairs = true)
    {g v : List α} (hg : g.length = n) (hv : v.length = n) :
    pairing (apply pairs g) v = pairing g (apply pairs v) := by
  cases pairs with
  | nil => rfl
  | cons p older => exact pairing_recursion_comm p.gamma (fits_iff.mp hfits) hg hv

/-! ## Positivity -/

/-- The form of the recursion is not negative, and positive off zero. -/
theorem pairing_recursion_pos {gamma : α} (hgamma : 0 < gamma) {n : Nat} {pairs : List (Pair α)}
    (hfits : ∀ p ∈ pairs, p.s.length = n ∧ p.y.length = n) (hpairs : ∀ p ∈ pairs, 0 < p.curvature)
    {q : List α} (hq : q.length = n) :
    0 ≤ pairing (recursion gamma pairs q) q ∧
      (0 < pairing q q → 0 < pairing (recursion gamma pairs q) q) := by
  induction pairs generalizing q with
  | nil =>
    rw [recursion, Vec.pairing_scale]
    exact ⟨mul_nonneg hgamma.le (pairing_self_nonneg q), mul_pos hgamma⟩
  | cons p older ih =>
    obtain ⟨hp, holder⟩ := List.forall_mem_cons.mp hfits
    obtain ⟨hcurvature, hcurvatures⟩ := List.forall_mem_cons.mp hpairs
    have hrho : 0 < p.rho := by simpa [Pair.rho] using hcurvature
    obtain ⟨hnonneg, hpos⟩ := ih holder hcurvatures (p.length_rest hp.2 hq)
    rw [pairing_recursion_cons gamma hp holder hq hq]
    constructor
    · exact add_nonneg hnonneg (mul_nonneg hrho.le (mul_self_nonneg _))
    · intro hqq
      by_cases hzero : pairing p.s q = 0
      · rw [Pair.rest_eq_self (hq.trans hp.2.symm) hzero] at hpos ⊢
        simpa [hzero] using hpos hqq
      · exact add_pos_of_nonneg_of_pos hnonneg (mul_pos hrho (mul_self_pos.mpr hzero))

/-- Pairs along which the curvature is positive: along every pair once it is moved off zero, and along
the newest pair, which gives the scale, by itself. -/
structure Positive (pairs : List (Pair α)) : Prop where
  moved : ∀ p ∈ pairs, 0 < p.curvature
  newest : ∀ p ∈ pairs.head?, 0 < Vec.dot p.s p.y

/-- Where the curvature is positive by itself along every pair, it is so too once it is moved. -/
theorem Positive.of_forall {pairs : List (Pair α)} (h : ∀ p ∈ pairs, 0 < Vec.dot p.s p.y) :
    Positive pairs where
  moved p hp := by
    have hdot : 0 < Vec.dot p.y p.s := by
      rw [Vec.dot_comm]
      exact h p hp
    exact add_pos hdot offset_pos
  newest p hp := h p (List.mem_of_mem_head? hp)

/-- With positive curvatures the form of the estimate is positive. -/
theorem pairing_apply_pos {pairs : List (Pair α)} {g : List α} (hfits : fits g.length pairs = true)
    (hpairs : Positive pairs) (hg : 0 < pairing g g) : 0 < pairing (apply pairs g) g := by
  cases pairs with
  | nil => exact hg
  | cons p older =>
    have hgamma : 0 < p.gamma := by
      refine div_pos (hpairs.newest p rfl) (add_pos_of_nonneg_of_pos ?_ offset_pos)
      rw [Vec.dot_eq_pairing]
      exact pairing_self_nonneg p.y
    exact (pairing_recursion_pos hgamma (fits_iff.mp hfits) hpairs.moved rfl).2 hg

/-- With positive curvatures the recursion has a result. -/
theorem twoLoop_eq_apply {pairs : List (Pair α)} {g : List α} (hfits : fits g.length pairs = true)
    (hpairs : Positive pairs) : twoLoop pairs g = .ok (apply pairs g) := by
  rw [twoLoop_eq_ite hfits, if_neg]
  simp only [List.any_eq_true, RingScalar.same_iff, RingScalar.zero_literal]
  rintro ⟨p, hp, hzero⟩
  exact (hpairs.moved p hp).ne' hzero

/-- With positive curvatures the recursion has a result, which descends. -/
theorem twoLoop_of_positive {pairs : List (Pair α)} {g : List α}
    (hfits : fits g.length pairs = true) (hpairs : Positive pairs) (hg : 0 < pairing g g) :
    ∃ r, twoLoop pairs g = .ok r ∧ 0 < Vec.dot r g := by
  refine ⟨apply pairs g, twoLoop_eq_apply hfits hpairs, ?_⟩
  rw [Vec.dot_eq_pairing]
  exact pairing_apply_pos hfits hpairs hg

/-- The direction that a memory gives is the gradient or descends. -/
theorem Memory.precondition_descends {m m' : Memory α} {x g r : List α}
    (h : m.precondition x g = .ok (r, m')) : r = g ∨ 0 < Vec.dot r g := by
  obtain ⟨_, hr | ⟨_, _, hdescends⟩⟩ := precondition_eq_ok h
  · exact .inl hr
  · exact .inr (by simpa using hdescends)

/-- It never ascends. -/
theorem Memory.precondition_nonneg {m m' : Memory α} {x g r : List α}
    (h : m.precondition x g = .ok (r, m')) : 0 ≤ Vec.dot r g := by
  rcases precondition_descends h with rfl | hdescends
  · rw [Vec.dot_eq_pairing]
    exact pairing_self_nonneg r
  · exact hdescends.le

/-- Where the gradient is not zero it descends. -/
theorem Memory.precondition_pos {m m' : Memory α} {x g r : List α}
    (h : m.precondition x g = .ok (r, m')) (hg : ∃ a ∈ g, a ≠ 0) : 0 < Vec.dot r g := by
  rcases precondition_descends h with rfl | hdescends
  · rw [Vec.dot_eq_pairing]
    exact pairing_self_pos hg
  · exact hdescends

end DiagramLayout.Lbfgs

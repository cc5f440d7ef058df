import DiagramLayout.Proofs.Lbfgs.Positive
import Mathlib.Algebra.BigOperators.Fin
import Mathlib.Data.Matrix.Mul
import Mathlib.Tactic.Abel

/-!
# The estimate as a matrix

The recursion never forms the inverse Hessian, but it applies one. In an ordered field that is the
matrix of the textbook update, which takes in the pairs from the oldest to the newest.
-/

namespace DiagramLayout

open Matrix

/-! ## Lists as functions -/

namespace Vec

variable {α : Type} [RingScalar α]

/-- The first `n` entries of a list, with zeros where it ends. -/
def coordinates (n : Nat) (v : List α) : Fin n → α := fun i => v.getD i 0

theorem coordinates_scale (n : Nat) (c : α) (v : List α) :
    coordinates n (scale c v) = c • coordinates n v := by
  funext i
  cases h : v[(i : Nat)]? <;> simp [coordinates, scale, h]

theorem coordinates_zipWith {n : Nat} {f : α → α → α} (hf : f 0 0 = 0) {u v : List α}
    (h : u.length = v.length) (i : Fin n) :
    coordinates n (u.zipWith f v) i = f (coordinates n u i) (coordinates n v i) := by
  by_cases hi : (i : Nat) < u.length
  · simp [coordinates, hi, h ▸ hi]
  · have hi' : ¬ (i : Nat) < v.length := h ▸ hi
    simp [coordinates, hi, hi', hf]

theorem coordinates_add (n : Nat) {u v : List α} (h : u.length = v.length) :
    coordinates n (add u v) = coordinates n u + coordinates n v :=
  funext (coordinates_zipWith (add_zero 0) h)

theorem coordinates_sub (n : Nat) {u v : List α} (h : u.length = v.length) :
    coordinates n (sub u v) = coordinates n u - coordinates n v :=
  funext (coordinates_zipWith (sub_zero 0) h)

theorem pairing_eq_dotProduct {n : Nat} {u v : List α} (hu : u.length = n) (hv : v.length = n) :
    pairing u v = coordinates n u ⬝ᵥ coordinates n v := by
  induction n generalizing u v with
  | zero => simp [List.eq_nil_of_length_eq_zero hu, dotProduct]
  | succ n ih =>
    obtain ⟨a, u, rfl⟩ := List.exists_cons_of_length_eq_add_one hu
    obtain ⟨b, v, rfl⟩ := List.exists_cons_of_length_eq_add_one hv
    rw [pairing_cons, ih (Nat.succ.inj hu) (Nat.succ.inj hv), dotProduct, dotProduct, Fin.sum_univ_succ]
    rfl

theorem ofFn_coordinates {n : Nat} {v : List α} (h : v.length = n) :
    List.ofFn (coordinates n v) = v := by
  subst h
  refine List.ext_getElem (by simp) fun i _ hi => ?_
  simp [coordinates, hi]

theorem ofFn_smul_add {n : Nat} (c : α) (u w : Fin n → α) :
    List.ofFn (c • u + w) = add (scale c (List.ofFn u)) (List.ofFn w) := by
  refine List.ext_getElem (by simp [add, scale]) fun i _ _ => ?_
  simp [add, scale]

end Vec

namespace Lbfgs

variable {α : Type} [FieldScalar α] {n : Nat}

/-! ## Updates -/

/-- What takes the part of a pair off a vector. -/
def Pair.deflation (n : Nat) (p : Pair α) : Matrix (Fin n) (Fin n) α :=
  let s := Vec.coordinates n p.s
  let y := Vec.coordinates n p.y
  1 - (1 / (y ⬝ᵥ s + offset)) • vecMulVec y s

/-- An estimate after it has taken in a pair. -/
def Pair.update (n : Nat) (p : Pair α) (H : Matrix (Fin n) (Fin n) α) : Matrix (Fin n) (Fin n) α :=
  let s := Vec.coordinates n p.s
  let y := Vec.coordinates n p.y
  (p.deflation n)ᵀ * H * p.deflation n + (1 / (y ⬝ᵥ s + offset)) • vecMulVec s s

/-- The estimate before any pair, at the scale of the newest one. -/
def Pair.identity (n : Nat) (p : Pair α) : Matrix (Fin n) (Fin n) α :=
  let s := Vec.coordinates n p.s
  let y := Vec.coordinates n p.y
  (s ⬝ᵥ y / (y ⬝ᵥ y + offset)) • 1

/-- The estimate of a history: the oldest pair is taken in first, and the newest last. -/
def dense (n : Nat) (newest : Pair α) (older : List (Pair α)) : Matrix (Fin n) (Fin n) α :=
  (newest :: older).foldr (Pair.update n) (newest.identity n)

/-! ## The recursion as a product -/

section

variable {p : Pair α} (hp : p.s.length = n ∧ p.y.length = n)
include hp

theorem Pair.curvature_eq :
    p.curvature = Vec.coordinates n p.y ⬝ᵥ Vec.coordinates n p.s + offset := by
  rw [curvature, Vec.dot_eq_pairing, Vec.pairing_eq_dotProduct hp.2 hp.1]

theorem Pair.rho_eq :
    p.rho = 1 / (Vec.coordinates n p.y ⬝ᵥ Vec.coordinates n p.s + offset) := by
  rw [rho, curvature_eq hp, RingScalar.one_literal]

theorem Pair.gamma_smul_one :
    (p.gamma • 1 : Matrix (Fin n) (Fin n) α) = p.identity n := by
  rw [gamma, Vec.dot_eq_pairing, Vec.dot_eq_pairing, Vec.pairing_eq_dotProduct hp.1 hp.2,
    Vec.pairing_eq_dotProduct hp.2 hp.2, identity]

theorem Pair.coordinates_rest {q : List α} (hq : q.length = n) :
    Vec.coordinates n (p.rest q) = p.deflation n *ᵥ Vec.coordinates n q := by
  have hlength : q.length = (Vec.scale (p.rho * Vec.dot p.s q) p.y).length := by simp [hp, hq]
  rw [rest, Vec.coordinates_sub n hlength, Vec.coordinates_scale, Vec.dot_eq_pairing,
    Vec.pairing_eq_dotProduct hp.1 hq, deflation, rho_eq hp, sub_mulVec, one_mulVec, smul_mulVec,
    vecMulVec_mulVec, op_smul_eq_smul, smul_smul]

theorem Pair.update_mulVec (H : Matrix (Fin n) (Fin n) α) (v : Fin n → α) :
    p.update n H *ᵥ v =
      let s := Vec.coordinates n p.s
      let y := Vec.coordinates n p.y
      let r := H *ᵥ (p.deflation n *ᵥ v)
      r - (p.rho * y ⬝ᵥ r) • s + (p.rho * s ⬝ᵥ v) • s := by
  have htranspose : (p.deflation n)ᵀ = 1 - p.rho • vecMulVec (Vec.coordinates n p.s)
      (Vec.coordinates n p.y) := by
    rw [deflation, transpose_sub, transpose_one, transpose_smul, transpose_vecMulVec, rho_eq hp]
  simp only [update, add_mulVec, ← mulVec_mulVec, htranspose, sub_mulVec, one_mulVec, smul_mulVec,
    vecMulVec_mulVec, op_smul_eq_smul, smul_smul, rho_eq hp]

end

/-- The recursion multiplies by the update of all pairs, the oldest first. -/
theorem coordinates_recursion (gamma : α) {pairs : List (Pair α)}
    (hfits : ∀ p ∈ pairs, p.s.length = n ∧ p.y.length = n) {q : List α} (hq : q.length = n) :
    Vec.coordinates n (recursion gamma pairs q) =
      pairs.foldr (Pair.update n) (gamma • 1) *ᵥ Vec.coordinates n q := by
  induction pairs generalizing q with
  | nil => rw [recursion, Vec.coordinates_scale, List.foldr_nil, smul_mulVec, one_mulVec]
  | cons p older ih =>
    obtain ⟨hp, holder⟩ := List.forall_mem_cons.mp hfits
    have hlength := length_recursion gamma holder (p.length_rest hp.2 hq)
    have hinner := ih holder (p.length_rest hp.2 hq)
    rw [Pair.coordinates_rest hp hq] at hinner
    rw [recursion_cons, List.foldr_cons, Pair.update_mulVec hp, ← hinner]
    generalize recursion gamma older (p.rest q) = r at hlength
    rw [Vec.coordinates_add n (by simp [hlength, hp]), Vec.coordinates_scale,
      Vec.pairing_eq_dotProduct hp.1 hq, Vec.pairing_eq_dotProduct hp.2 hlength, sub_smul]
    dsimp only
    abel

/-! ## The direction of a history -/

variable {newest : Pair α} {older : List (Pair α)}

/-- The recursion applies the dense estimate. -/
theorem apply_eq_dense (hfits : fits n (newest :: older) = true) {g : List α} (hg : g.length = n) :
    apply (newest :: older) g = List.ofFn (dense n newest older *ᵥ Vec.coordinates n g) := by
  have hpairs := fits_iff.mp hfits
  have hnewest := hpairs newest List.mem_cons_self
  have hlength : (apply (newest :: older) g).length = n := length_recursion newest.gamma hpairs hg
  rw [← Vec.ofFn_coordinates hlength, apply, coordinates_recursion newest.gamma hpairs hg,
    Pair.gamma_smul_one hnewest, dense]

/-- With vectors of one length the recursion has a result, unless a curvature is zero. -/
theorem twoLoop_eq {pairs : List (Pair α)} {g : List α} (hfits : fits g.length pairs = true) :
    twoLoop pairs g =
      if ∃ p ∈ pairs, p.curvature = 0 then .error .zeroDivisor else .ok (apply pairs g) := by
  rw [twoLoop_eq_ite hfits]
  exact if_congr (by simp) rfl rfl

/-- A history gives the dense estimate times the gradient, and so a direction that is linear in the
gradient. Where a curvature is zero there is no estimate, whatever the gradient. -/
theorem twoLoop_eq_dense (newest : Pair α) (older : List (Pair α))
    (hfits : fits n (newest :: older) = true) (g : List α) (hg : g.length = n) :
    (twoLoop (newest :: older) g =
      if ∃ p ∈ newest :: older, p.curvature = 0 then .error .zeroDivisor
      else .ok (List.ofFn (dense n newest older *ᵥ Vec.coordinates n g))) ∧
    ∀ (c : α) (h : List α), h.length = n →
      twoLoop (newest :: older) (Vec.add (Vec.scale c g) h) = do
        let u ← twoLoop (newest :: older) g
        let w ← twoLoop (newest :: older) h
        return Vec.add (Vec.scale c u) w := by
  have heq (v : List α) (hv : v.length = n) : twoLoop (newest :: older) v =
      if ∃ p ∈ newest :: older, p.curvature = 0 then .error .zeroDivisor
      else .ok (List.ofFn (dense n newest older *ᵥ Vec.coordinates n v)) := by
    rw [twoLoop_eq (hv.symm ▸ hfits), apply_eq_dense hfits hv]
  refine ⟨heq g hg, fun c h hh => ?_⟩
  have hlength : (Vec.add (Vec.scale c g) h).length = n := by simp [hg, hh]
  rw [heq g hg, heq h hh, heq _ hlength]
  split
  · rfl
  · rw [Vec.coordinates_add n (by simp [hg, hh]), Vec.coordinates_scale, mulVec_add, mulVec_smul,
      Vec.ofFn_smul_add]
    rfl

/-- Two pairs in the plane, the newest along the first axis. -/
theorem twoLoop_plane :
    twoLoop [⟨[1, 0], [2, 0]⟩, ⟨[1, 1], [2, 6]⟩] [(4 : ℚ), 10] = .ok (List.ofFn
      (dense 2 ⟨[1, 0], [2, 0]⟩ [⟨[1, 1], [2, 6]⟩] *ᵥ Vec.coordinates 2 [4, 10])) := by
  have hcurvature : ¬ ∃ p ∈ [(⟨[1, 0], [2, 0]⟩ : Pair ℚ), ⟨[1, 1], [2, 6]⟩], p.curvature = 0 := by
    decide +kernel
  have h := (twoLoop_eq_dense (⟨[1, 0], [2, 0]⟩ : Pair ℚ) [⟨[1, 1], [2, 6]⟩] rfl [4, 10] rfl).1
  rwa [if_neg hcurvature] at h

end Lbfgs

end DiagramLayout

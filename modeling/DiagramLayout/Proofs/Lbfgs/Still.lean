import DiagramLayout.Proofs.Lbfgs.Window
import DiagramLayout.Proofs.Scalar.Exact

namespace DiagramLayout

variable {α : Type} [RingScalar α] {j : Nat} {a : α} {u v : List α}

namespace Vec

/-- A vector has a zero at a position. -/
def ZeroAt (j : Nat) (v : List α) : Prop := v[j]? = some 0

theorem zeros_zeroAt {n : Nat} (h : j < n) : ZeroAt j (zeros n : List α) := by
  simp [ZeroAt, zeros, h]

theorem getElem?_sub {b : α} (hu : u[j]? = some a) (hv : v[j]? = some b) :
    (sub u v)[j]? = some (a - b) := by
  simp [sub, List.getElem?_zipWith, hu, hv]

/-- A difference is zero where the vectors agree. -/
theorem sub_zeroAt (hu : u[j]? = some a) (hv : v[j]? = some a) : ZeroAt j (sub u v) := by
  rw [ZeroAt, getElem?_sub hu hv, sub_self]

namespace ZeroAt

theorem scale (c : α) (h : ZeroAt j v) : ZeroAt j (scale c v) := by
  simp only [ZeroAt, Vec.scale, List.getElem?_map] at h ⊢
  rw [h, Option.map_some, mul_zero]

theorem add (hu : ZeroAt j u) (hv : ZeroAt j v) : ZeroAt j (add u v) := by
  simp only [ZeroAt] at hu hv
  simp [ZeroAt, Vec.add, List.getElem?_zipWith, hu, hv]

theorem sub (hu : ZeroAt j u) (hv : ZeroAt j v) : ZeroAt j (sub u v) := sub_zeroAt hu hv

/-- A step along a vector does not change an entry at which it is zero. -/
theorem getElem?_sub_scale (c : α) (hu : u[j]? = some a) (hv : ZeroAt j v) :
    (Vec.sub u (Vec.scale c v))[j]? = some a := by
  rw [getElem?_sub hu (hv.scale c), sub_zero]

end ZeroAt

end Vec

open Vec

namespace Lbfgs

variable {pairs : List (Pair α)} {g r : List α}

/-- Pairs with zeros at a position leave a zero there. -/
theorem recursion_zeroAt (gamma : α) (hpairs : ∀ p ∈ pairs, ZeroAt j p.s ∧ ZeroAt j p.y)
    {q : List α} (hq : ZeroAt j q) : ZeroAt j (recursion gamma pairs q) := by
  induction pairs generalizing q with
  | nil => exact hq.scale gamma
  | cons p older ih =>
    obtain ⟨⟨hs, hy⟩, holder⟩ := List.forall_mem_cons.mp hpairs
    have hinner := ih holder (hq.sub (hy.scale (p.rho * Vec.dot p.s q)))
    exact hinner.add (hs.scale _)

theorem twoLoop_zeroAt (hpairs : ∀ p ∈ pairs, ZeroAt j p.s ∧ ZeroAt j p.y) (hg : ZeroAt j g)
    (h : twoLoop pairs g = .ok r) : ZeroAt j r := by
  unfold twoLoop at h
  split at h
  · cases h
  · split at h
    · cases h
      cases pairs with
      | nil => exact hg
      | cons p older => exact recursion_zeroAt _ hpairs hg
    · cases h

/-- Visits that agree in an entry of the state and have no slope along it. -/
def Still (j : Nat) (a : α) (visits : List (Visit α)) : Prop :=
  ∀ v ∈ visits, v.state[j]? = some a ∧ ZeroAt j v.gradient

theorem differences_zeroAt {visits : List (Visit α)} (h : Still j a visits) :
    ∀ p ∈ differences visits, ZeroAt j p.s ∧ ZeroAt j p.y := by
  induction visits with
  | nil => simp
  | cons v visits ih =>
    obtain ⟨⟨hstate, hgradient⟩, hvisits⟩ := List.forall_mem_cons.mp h
    cases visits with
    | nil => simp
    | cons w visits =>
      obtain ⟨hstate', hgradient'⟩ := hvisits w List.mem_cons_self
      rw [differences_cons, List.forall_mem_cons]
      exact ⟨⟨sub_zeroAt hstate hstate', hgradient.sub hgradient'⟩, ih hvisits⟩

/-- A memory of visits that stand still gives a direction that does. -/
theorem Memory.Holds.direction_zeroAt {m m' : Memory α} {n : Nat} {visits : List (Visit α)}
    {x : List α} (h : m.Holds n visits) (hx : x.length = n) (hg : g.length = n)
    (hr : m.precondition x g = .ok (r, m')) (still : Still j a (⟨x, g⟩ :: visits)) :
    ZeroAt j r := by
  obtain ⟨⟨_, hgradient⟩, _⟩ := List.forall_mem_cons.mp still
  rcases (h.of_precondition hx hg hr).2 with ⟨_, _, rfl⟩ | ⟨hholds, _, hq⟩
  · exact hgradient
  · refine twoLoop_zeroAt ?_ hgradient hq
    rw [hholds.pairs]
    exact differences_zeroAt fun v hv => still v (List.mem_of_mem_take hv)

end Lbfgs

end DiagramLayout

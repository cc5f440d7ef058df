import DiagramLayout.Proofs.Lbfgs.Positive

/-!
# Definite estimates

Pairs of positive curvature give a symmetric positive definite estimate. A memory that computes with
such pairs therefore keeps them: its direction is the estimate, and it is not emptied.
-/

namespace DiagramLayout.Lbfgs

/-! ## Memories with a last state -/

/-- A memory that knows a last state and gradient of `n` entries. -/
structure Memory.Ready {α : Type} (m : Memory α) (n : Nat) : Prop where
  lastState : ∃ x, m.lastState = some x ∧ x.length = n
  lastGradient : ∃ g, m.lastGradient = some g ∧ g.length = n

namespace Memory.Ready

variable {α : Type} [FieldScalar α] {m : Memory α} {n : Nat} {x g : List α}

/-- An estimate that descends is the direction, and the memory keeps the differences that it is from. -/
theorem precondition_eq (h : m.Ready n) (hsteps : m.steps ≠ 0) (hx : x.length = n)
    (hg : g.length = n) {r : List α} (hr : twoLoop (m.window x g) g = .ok r)
    (hdescends : 0 < Vec.dot r g) :
    m.precondition x g = .ok (r, ⟨m.capacity, some x, some g, m.window x g, m.steps + 1⟩) := by
  obtain ⟨x', hstate, hx'⟩ := h.lastState
  obtain ⟨g', hgradient, hg'⟩ := h.lastGradient
  rw [precondition_eq_window hsteps hstate hgradient (hx.trans hx'.symm) (hg.trans hg'.symm)
    (hx.trans hg.symm), hr, ok_bind]
  exact if_pos (by simpa using hdescends)

end Memory.Ready

/-! ## The estimate of positive pairs -/

variable {α : Type} [FieldScalar α] {pairs : List (Pair α)} {n : Nat}

/-- **The estimate is symmetric and positive definite.** Pairs of positive curvature, however many, have
an estimate for every vector. Its form is symmetric, and positive off zero. So a memory that computes
with these pairs gives the estimate as the direction at every gradient that is not zero, and keeps the
pairs. -/
theorem Positive.definite (hpairs : Positive pairs) (hfits : fits n pairs = true) :
    (∀ g h : List α, g.length = n → h.length = n →
      ∃ u w, twoLoop pairs g = .ok u ∧ twoLoop pairs h = .ok w ∧ Vec.dot u h = Vec.dot g w ∧
        ((∃ a ∈ g, a ≠ 0) → 0 < Vec.dot u g)) ∧
    ∀ (m : Memory α) (x g : List α), m.Ready n → m.steps ≠ 0 → x.length = n → g.length = n →
      (∃ a ∈ g, a ≠ 0) → m.window x g = pairs →
        ∃ r, twoLoop pairs g = .ok r ∧
          m.precondition x g = .ok (r, ⟨m.capacity, some x, some g, pairs, m.steps + 1⟩) := by
  constructor
  · intro g h hg hh
    have hu := twoLoop_eq_apply (hg.symm ▸ hfits) hpairs
    have hw := twoLoop_eq_apply (hh.symm ▸ hfits) hpairs
    refine ⟨apply pairs g, apply pairs h, hu, hw, ?_, ?_⟩
    · rw [Vec.dot_eq_pairing, Vec.dot_eq_pairing]
      exact pairing_apply_comm hfits hg hh
    · intro hnonzero
      rw [Vec.dot_eq_pairing]
      exact pairing_apply_pos (hg.symm ▸ hfits) hpairs (pairing_self_pos hnonzero)
  · rintro m x g hready hsteps hx hg hnonzero rfl
    obtain ⟨r, hr, hdescends⟩ :=
      twoLoop_of_positive (hg.symm ▸ hfits) hpairs (pairing_self_pos hnonzero)
    exact ⟨r, hr, hready.precondition_eq hsteps hx hg hr hdescends⟩

/-- A memory of one pair in the plane along which the curvature is zero, so that it is positive only
once it is moved. -/
def flatMemory : Memory ℚ where
  capacity := 2
  lastState := some [0, 0]
  lastGradient := some [0, 10]
  pairs := [⟨[1, 1], [1, -1]⟩]
  steps := 2

/-- At the next state the curvature is positive, and the memory keeps both pairs. -/
theorem flatMemory_definite :
    (∃ u w, twoLoop [⟨[1, 0], [2, 0]⟩, ⟨[1, 1], [1, -1]⟩] [(2 : ℚ), 10] = .ok u ∧
      twoLoop [⟨[1, 0], [2, 0]⟩, ⟨[1, 1], [1, -1]⟩] [(3 : ℚ), -1] = .ok w ∧
        Vec.dot u [3, -1] = Vec.dot [2, 10] w ∧ 0 < Vec.dot u [2, 10]) ∧
    ∃ r, twoLoop [⟨[1, 0], [2, 0]⟩, ⟨[1, 1], [1, -1]⟩] [(2 : ℚ), 10] = .ok r ∧
      flatMemory.precondition [1, 0] [2, 10] =
        .ok (r, ⟨2, some [1, 0], some [2, 10], [⟨[1, 0], [2, 0]⟩, ⟨[1, 1], [1, -1]⟩], 3⟩) := by
  have hpairs : Positive [(⟨[1, 0], [2, 0]⟩ : Pair ℚ), ⟨[1, 1], [1, -1]⟩] :=
    ⟨by decide +kernel, by decide +kernel⟩
  have hready : flatMemory.Ready 2 := ⟨⟨_, rfl, rfl⟩, ⟨_, rfl, rfl⟩⟩
  have hwindow : flatMemory.window [1, 0] [2, 10] = [⟨[1, 0], [2, 0]⟩, ⟨[1, 1], [1, -1]⟩] := by
    simp [Memory.window, flatMemory, Vec.sub]
  obtain ⟨hform, hmemory⟩ := hpairs.definite (n := 2) rfl
  obtain ⟨u, w, hu, hw, hcomm, hpos⟩ := hform [2, 10] [3, -1] rfl rfl
  exact ⟨⟨u, w, hu, hw, hcomm, hpos (by decide +kernel)⟩,
    hmemory flatMemory [1, 0] [2, 10] hready (by decide) rfl rfl (by decide +kernel) hwindow⟩

end DiagramLayout.Lbfgs

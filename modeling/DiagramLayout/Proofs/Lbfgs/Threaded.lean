import DiagramLayout.Proofs.Lbfgs.Window
import DiagramLayout.Proofs.Scalar.Exact

/-!
# Memories in use

A memory is passed from call to call. It counts the calls since it was empty or last fell back on the
gradient, and it is a window on the differences between them.
-/

namespace DiagramLayout.Lbfgs.Memory

variable {α : Type} [Scalar α]

/-! ## One call -/

/-- Whether a call computes an estimate that does not descend, and so falls back on the gradient. -/
def fallsBack (m : Memory α) (x g : List α) : Bool :=
  m.steps != 0 &&
    match twoLoop (m.window x g) g with
    | .ok r => !Scalar.less (-Vec.dot r g) 0.0
    | .error _ => false

namespace Holds

variable {m m' : Memory α} {n : Nat} {visits : List (Visit α)} {x g r : List α}

/-- A call that falls back gives the gradient, and leaves a memory of itself alone. -/
theorem precondition_of_fallsBack (h : m.Holds n visits) (hx : x.length = n) (hg : g.length = n)
    (hfalls : m.fallsBack x g = true) :
    m.precondition x g = .ok (g, ⟨m.capacity, some x, some g, [], 1⟩) := by
  simp only [fallsBack, h.window_eq, Bool.and_eq_true, bne_iff_ne, ne_eq] at hfalls
  obtain ⟨hsteps, hascends⟩ := hfalls
  simp only [h.precondition_eq hx hg, if_neg hsteps]
  split at hascends
  · next r hr =>
    have hless : Scalar.less (-Vec.dot r g) 0.0 = false := by simpa using hascends
    rw [hr, ok_bind, hless]
    rfl
  · cases hascends

/-- Any other call adds itself to those that the memory counts. -/
theorem goOn_eq (h : m.Holds n visits) (hx : x.length = n) (hg : g.length = n)
    (hgoes : m.fallsBack x g = false) (hr : m.precondition x g = .ok (r, m')) :
    m' = ⟨m.capacity, some x, some g, differences ((⟨x, g⟩ :: visits).take (m.capacity + 1)),
      m.steps + 1⟩ := by
  rw [h.precondition_eq hx hg] at hr
  by_cases hsteps : m.steps = 0
  · rw [if_pos hsteps] at hr
    obtain rfl := h.eq_nil_iff.mpr hsteps
    cases hr
    simp [hsteps]
  · rw [if_neg hsteps] at hr
    obtain ⟨q, hq, hr⟩ := bind_eq_ok_iff.mp hr
    have hdescends : Scalar.less (-Vec.dot q g) 0.0 = true := by
      rw [fallsBack, h.window_eq, hq] at hgoes
      simpa [hsteps] using hgoes
    rw [if_pos hdescends] at hr
    cases hr
    rfl

end Holds

/-! ## Calls in a row -/

/-- The memories that a fresh one leads to, by calls on vectors of `n` entries and by resets in any
order. The visits are those of the calls that count, the newest first: a reset ends them, and a call
that falls back is the first of others. -/
inductive Threaded (capacity : Int) (n : Nat) : List (Visit α) → Memory α → Prop where
  | fresh {m : Memory α} : Memory.fresh capacity = .ok m → Threaded capacity n [] m
  | reset {visits : List (Visit α)} {m : Memory α} : Threaded capacity n visits m →
      Threaded capacity n [] m.reset
  | call {visits : List (Visit α)} {m m' : Memory α} {x g r : List α} :
      Threaded capacity n visits m → x.length = n → g.length = n →
      m.precondition x g = .ok (r, m') →
      Threaded capacity n (⟨x, g⟩ :: if m.fallsBack x g then [] else visits) m'

namespace Threaded

variable {capacity : Int} {n : Nat} {visits : List (Visit α)} {m : Memory α}

omit [Scalar α] in
/-- What falls out of a window of visits falls out of it again with another visit in front. -/
theorem take_cons_take (v : Visit α) (visits : List (Visit α)) (k : Nat) :
    (v :: visits.take (k + 1)).take (k + 1) = (v :: visits).take (k + 1) := by
  simp [List.take_take]

/-- A memory in use holds the newest visits, and counts them all. -/
theorem holds (h : Threaded capacity n visits m) :
    (m.capacity : Int) = capacity ∧ m.steps = visits.length ∧
      m.Holds n (visits.take (m.capacity + 1)) := by
  induction h with
  | fresh hfresh =>
    obtain ⟨hcapacity, rfl⟩ := fresh_eq_ok_iff.mp hfresh
    exact ⟨Int.toNat_of_nonneg hcapacity, rfl, .empty _ n⟩
  | reset _ ih => exact ⟨ih.1, rfl, .empty _ n⟩
  | @call visits m m' x g r _ hx hg hr ih =>
    obtain ⟨hcapacity, hsteps, holds⟩ := ih
    cases hfalls : m.fallsBack x g with
    | true =>
      rw [holds.precondition_of_fallsBack hx hg hfalls] at hr
      cases hr
      exact ⟨hcapacity, rfl, by simpa using Holds.single m.capacity hx hg⟩
    | false =>
      have hpush := holds.push hx hg
      obtain rfl := holds.goOn_eq hx hg hfalls hr
      rw [take_cons_take] at hpush ⊢
      exact ⟨hcapacity, by simp [hsteps], hpush⟩

/-- A call that falls back always has a result. -/
theorem fallBack {x g : List α} (h : Threaded capacity n visits m) (hx : x.length = n)
    (hg : g.length = n) (hfalls : m.fallsBack x g = true) :
    Threaded capacity n [⟨x, g⟩] ⟨m.capacity, some x, some g, [], 1⟩ := by
  have hcall := h.call hx hg (h.holds.2.2.precondition_of_fallsBack hx hg hfalls)
  rwa [if_pos hfalls] at hcall

/-- Any other call has one unless a curvature is zero. -/
theorem goOn {x g : List α} (h : Threaded capacity n visits m) (hx : x.length = n)
    (hg : g.length = n) (hgoes : m.fallsBack x g = false)
    (hnonzero : ∀ p ∈ m.window x g, Scalar.same p.curvature 0.0 = false) :
    Threaded capacity n (⟨x, g⟩ :: visits)
      ⟨m.capacity, some x, some g, (differences (⟨x, g⟩ :: visits)).take m.capacity,
        m.steps + 1⟩ := by
  have holds := h.holds.2.2
  cases hr : m.precondition x g with
  | error cause =>
    obtain ⟨_, p, hp, hzero⟩ := (holds.precondition_eq_error_iff hx hg).mp hr
    rw [hnonzero p hp] at hzero
    cases hzero
  | ok result =>
    have hcall := h.call hx hg hr
    rw [hgoes, holds.goOn_eq hx hg hgoes hr, take_cons_take, differences_take] at hcall
    exact hcall

/-- **A memory is a sliding window.** After any calls and resets a memory counts the calls since it was
fresh or last fell back, that one included. It knows the state and the gradient of the last call, and
it has the differences between the newest calls, as many as there are or as its capacity allows, the
newest first. It can be reset, and its next call fails on a curvature of zero only, never on a check of
its own lengths. -/
theorem window_slides (h : Threaded capacity n visits m) :
    (m.capacity : Int) = capacity ∧ m.steps = visits.length ∧
      m.lastState = visits.head?.map Visit.state ∧
      m.lastGradient = visits.head?.map Visit.gradient ∧
      m.pairs = (differences visits).take m.capacity ∧
      m.pairs.length = min (visits.length - 1) m.capacity ∧
      Memory.fresh m.capacity = .ok m.reset ∧
      ∀ (x g : List α) (cause : Fault), x.length = n → g.length = n →
        (m.precondition x g = .error cause ↔
          cause = .zeroDivisor ∧ ∃ p ∈ m.window x g, Scalar.same p.curvature 0.0 = true) := by
  obtain ⟨hcapacity, hsteps, holds⟩ := h.holds
  have hpairs : m.pairs = (differences visits).take m.capacity := by
    rw [holds.pairs, differences_take]
  refine ⟨hcapacity, hsteps, ?_, ?_, hpairs, ?_, ?_, ?_⟩
  · rw [holds.lastState, List.head?_take, if_neg m.capacity.succ_ne_zero]
  · rw [holds.lastGradient, List.head?_take, if_neg m.capacity.succ_ne_zero]
  · rw [hpairs, List.length_take, length_differences, Nat.min_comm]
  · exact fresh_eq_ok_iff.mpr ⟨Int.natCast_nonneg _, rfl⟩
  · intro x g cause hx hg
    exact holds.precondition_eq_error_iff hx hg

/-- A memory of one pair, used in one dimension: a call, a reset, a call, one across negative curvature
that falls back, and two more. -/
theorem uphill_window_slides : ∃ m : Memory ℚ,
    Threaded 1 1 [⟨[3], [6]⟩, ⟨[2], [4]⟩, ⟨[1], [2]⟩] m ∧ m.steps = 3 ∧ m.lastState = some [3] ∧
      m.lastGradient = some [6] ∧ m.pairs = [⟨[1], [2]⟩] := by
  have empty : Threaded 1 1 [] (⟨1, none, none, [], 0⟩ : Memory ℚ) := .fresh rfl
  have unused : Threaded 1 1 [⟨[0], [-4]⟩] (⟨1, some [0], some [-4], [], 1⟩ : Memory ℚ) :=
    empty.goOn rfl rfl rfl (by simp [window])
  have first : Threaded 1 1 [⟨[0], [4]⟩] (⟨1, some [0], some [4], [], 1⟩ : Memory ℚ) :=
    unused.reset.goOn rfl rfl rfl (by simp [window, Memory.reset])
  have fallen : Threaded 1 1 [⟨[1], [2]⟩] (⟨1, some [1], some [2], [], 1⟩ : Memory ℚ) :=
    first.fallBack rfl rfl (by decide +kernel)
  have second := fallen.goOn (x := [2]) (g := [4]) rfl rfl (by decide +kernel) (by decide +kernel)
  have third := second.goOn (x := [3]) (g := [6]) rfl rfl (by decide +kernel) (by decide +kernel)
  obtain ⟨_, hsteps, hstate, hgradient, hpairs, _⟩ := third.window_slides
  refine ⟨_, third, hsteps, hstate, hgradient, ?_⟩
  rw [hpairs]
  norm_num [Visit.since, Vec.sub]

end Threaded

end DiagramLayout.Lbfgs.Memory

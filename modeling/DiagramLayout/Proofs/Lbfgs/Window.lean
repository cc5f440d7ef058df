import DiagramLayout.Lbfgs
import DiagramLayout.Proofs.Outcome

/-!
# What a memory holds

A memory is a window on the visits of a phase: it holds the differences of as many consecutive ones
as its capacity allows, the newest first.

* `Visit`, `differences`: states with their gradients, and the differences between them;
* `Memory.Holds`: the visits that a memory has its differences from;
* `Memory.precondition_eq_window`, `Memory.Holds.precondition_eq`: what a call computes;
  `Memory.Holds.precondition_eq_error_iff`: where it fails; `Memory.Holds.of_precondition`: what the
  memory holds after it.
-/

namespace DiagramLayout

variable {α : Type} [Scalar α]

namespace Vec

@[simp] theorem length_scale (c : α) (v : List α) : (scale c v).length = v.length := by simp [scale]

@[simp] theorem length_sub (u v : List α) : (sub u v).length = min u.length v.length := by simp [sub]

@[simp] theorem length_add (u v : List α) : (add u v).length = min u.length v.length := by simp [add]

@[simp] theorem length_neg (v : List α) : (neg v).length = v.length := by simp [neg]

end Vec

namespace Lbfgs

/-! ## The recursion -/

omit [Scalar α] in
theorem fits_iff {n : Nat} {pairs : List (Pair α)} :
    fits n pairs = true ↔ ∀ p ∈ pairs, p.s.length = n ∧ p.y.length = n := by simp [fits]

theorem length_recursion (gamma : α) {n : Nat} {pairs : List (Pair α)}
    (h : ∀ p ∈ pairs, p.s.length = n ∧ p.y.length = n) {q : List α} (hq : q.length = n) :
    (recursion gamma pairs q).length = n := by
  induction pairs generalizing q with
  | nil => simpa [recursion] using hq
  | cons p older ih =>
    obtain ⟨⟨hs, hy⟩, holder⟩ := List.forall_mem_cons.mp h
    have hrest := ih holder (q := Vec.sub q (Vec.scale (p.rho * Vec.dot p.s q) p.y)) (by simp [hq, hy])
    simp [recursion, hrest, hs]

/-- The estimate has as many entries as the gradient. -/
theorem length_of_twoLoop {pairs : List (Pair α)} {g r : List α} (h : twoLoop pairs g = .ok r) :
    r.length = g.length := by
  unfold twoLoop at h
  split at h
  · cases h
  · split at h
    · next hfits =>
      cases h
      cases pairs with
      | nil => rfl
      | cons p older => exact length_recursion _ (fits_iff.mp hfits) rfl
    · cases h

theorem Pair.fault?_eq {n : Nat} {p : Pair α} (h : p.s.length = n ∧ p.y.length = n) :
    p.fault? = if Scalar.same p.curvature 0.0 then some .zeroDivisor else none := by
  simp [fault?, h]

/-- With vectors of one length only a curvature of zero keeps the recursion from a result. -/
theorem twoLoop_eq_ite {pairs : List (Pair α)} {g : List α} (hfits : fits g.length pairs = true) :
    twoLoop pairs g =
      if pairs.any fun p => Scalar.same p.curvature 0.0 then .error .zeroDivisor
      else .ok (apply pairs g) := by
  have hfault : pairs.findSome? Pair.fault? =
      if pairs.any fun p => Scalar.same p.curvature 0.0 then some .zeroDivisor else none := by
    have hsizes := fits_iff.mp hfits
    clear hfits
    induction pairs with
    | nil => rfl
    | cons p older ih =>
      obtain ⟨hp, holder⟩ := List.forall_mem_cons.mp hsizes
      rw [List.findSome?_cons, Pair.fault?_eq hp, ih holder, List.any_cons]
      cases Scalar.same p.curvature 0.0 <;> rfl
  rw [twoLoop, hfault]
  cases pairs.any fun p => Scalar.same p.curvature 0.0 with
  | true => rfl
  | false => simp [hfits]

theorem twoLoop_eq_error_iff {pairs : List (Pair α)} {g : List α}
    (hfits : fits g.length pairs = true) {cause : Fault} :
    twoLoop pairs g = .error cause ↔
      cause = .zeroDivisor ∧ ∃ p ∈ pairs, Scalar.same p.curvature 0.0 = true := by
  rw [twoLoop_eq_ite hfits, ← List.any_eq_true]
  split
  · next hzero => simp [hzero, eq_comm]
  · next hnonzero => simp [hnonzero]

/-! ## Visits -/

/-- A state with the gradient there. -/
structure Visit (α : Type) where
  state : List α
  gradient : List α

/-- The differences of a visit to the one before it. -/
def Visit.since (v before : Visit α) : Pair α :=
  ⟨Vec.sub v.state before.state, Vec.sub v.gradient before.gradient⟩

/-- The differences between consecutive visits, the newest visit first. -/
def differences (visits : List (Visit α)) : List (Pair α) :=
  visits.zipWith Visit.since visits.tail

@[simp] theorem differences_nil : differences ([] : List (Visit α)) = [] := rfl

@[simp] theorem differences_single (v : Visit α) : differences [v] = [] := rfl

@[simp] theorem differences_cons (v w : Visit α) (visits : List (Visit α)) :
    differences (v :: w :: visits) = v.since w :: differences (w :: visits) := rfl

@[simp] theorem length_differences (visits : List (Visit α)) :
    (differences visits).length = visits.length - 1 := by simp [differences]

theorem differences_take (visits : List (Visit α)) (k : Nat) :
    differences (visits.take (k + 1)) = (differences visits).take k := by
  induction visits generalizing k with
  | nil => simp
  | cons v visits ih =>
    cases visits with
    | nil => simp
    | cons w visits =>
      cases k with
      | zero => simp
      | succ k => simpa using ih k

theorem fits_differences {n : Nat} {visits : List (Visit α)}
    (h : ∀ v ∈ visits, v.state.length = n ∧ v.gradient.length = n) :
    fits n (differences visits) = true := by
  induction visits with
  | nil => rfl
  | cons v visits ih =>
    obtain ⟨hv, hvisits⟩ := List.forall_mem_cons.mp h
    cases visits with
    | nil => rfl
    | cons w visits =>
      have hw := hvisits w List.mem_cons_self
      have hrest := fits_iff.mp (ih hvisits)
      rw [differences_cons, fits_iff, List.forall_mem_cons]
      exact ⟨by simp [Visit.since, hv, hw], hrest⟩

namespace Memory

/-- The visits whose differences a memory holds, the newest first; none for an empty memory. They are
all those since the memory was last emptied, or as many as its capacity allows. -/
structure Holds (m : Memory α) (n : Nat) (visits : List (Visit α)) : Prop where
  lastState : m.lastState = visits.head?.map Visit.state
  lastGradient : m.lastGradient = visits.head?.map Visit.gradient
  pairs : m.pairs = differences visits
  count : (visits.length : Int) = min (m.steps - 1) m.capacity + 1
  sizes : ∀ v ∈ visits, v.state.length = n ∧ v.gradient.length = n

/-- The differences that a call at a state with a gradient computes with, the newest first. -/
def window (m : Memory α) (x g : List α) : List (Pair α) :=
  match m.lastState, m.lastGradient with
  | some x', some g' => (⟨Vec.sub x x', Vec.sub g g'⟩ :: m.pairs).take m.capacity
  | _, _ => []

/-! ## Calls -/

omit [Scalar α] in
theorem renew_eq {m : Memory α} {pairs : List (Pair α)} (h : pairs.length ≤ m.capacity)
    (x g : List α) (steps : Int) :
    m.renew x g pairs steps = .ok ⟨m.capacity, some x, some g, pairs, steps⟩ := by
  have hpairs : (pairs.map Pair.s).zipWith Pair.mk (pairs.map Pair.y) = pairs := by
    simp [List.zipWith_map, List.zipWith_self]
  simp [renew, make, require, h, hpairs, bind, Except.bind, pure, Except.pure]

omit [Scalar α] in
theorem restart_eq (m : Memory α) (x g : List α) :
    m.restart x g = .ok ⟨m.capacity, some x, some g, [], 1⟩ := renew_eq (Nat.zero_le _) x g 1

theorem difference_eq {u v : List α} (h : u.length = v.length) :
    difference u v = .ok (Vec.sub u v) := by simp [difference, Vec.pairwise?, h, Vec.sub]

omit [Scalar α] in
theorem fresh_eq_ok_iff {capacity : Int} {m : Memory α} :
    fresh capacity = .ok m ↔ 0 ≤ capacity ∧ m = { capacity := capacity.toNat } := by
  by_cases h : 0 ≤ capacity <;>
    simp [fresh, make, require, h, bind, Except.bind, pure, Except.pure, eq_comm]

/-- What a call computes after the first one of a phase: the estimate of its differences if that
descends, and else the gradient. -/
theorem precondition_eq_window {m : Memory α} {x g x' g' : List α} (hsteps : m.steps ≠ 0)
    (hstate : m.lastState = some x') (hgradient : m.lastGradient = some g')
    (hx : x.length = x'.length) (hg : g.length = g'.length) (hlength : x.length = g.length) :
    m.precondition x g =
      twoLoop (m.window x g) g >>= fun r =>
        if Scalar.less (-Vec.dot r g) 0.0 then
          .ok (r, ⟨m.capacity, some x, some g, m.window x g, m.steps + 1⟩)
        else .ok (g, ⟨m.capacity, some x, some g, [], 1⟩) := by
  have hkept : ((⟨Vec.sub x x', Vec.sub g g'⟩ : Pair α) :: m.pairs).take m.capacity =
      m.window x g := by rw [window, hstate, hgradient]
  have hcapacity : (m.window x g).length ≤ m.capacity := by
    rw [← hkept]
    exact List.length_take_le _ _
  simp only [precondition, require, hlength, BEq.rfl, ↓reduceIte, hsteps, hstate, hgradient,
    difference_eq hx, difference_eq hg, hkept, renew_eq hcapacity, restart_eq, bind, Except.bind, pure,
    Except.pure]

/-- The direction is the gradient, or an estimate that descends. -/
theorem precondition_eq_ok {m m' : Memory α} {x g r : List α}
    (h : m.precondition x g = .ok (r, m')) : x.length = g.length ∧
      (r = g ∨ ∃ pairs, twoLoop pairs g = .ok r ∧ Scalar.less (-Vec.dot r g) 0.0 = true) := by
  obtain ⟨_, hlength, h⟩ := bind_eq_ok_iff.mp h
  refine ⟨by simpa [require] using hlength, ?_⟩
  split at h
  · obtain ⟨_, _, h⟩ := bind_eq_ok_iff.mp h
    cases h
    exact .inl rfl
  · split at h
    · obtain ⟨_, _, h⟩ := bind_eq_ok_iff.mp h
      obtain ⟨_, _, h⟩ := bind_eq_ok_iff.mp h
      obtain ⟨q, hq, h⟩ := bind_eq_ok_iff.mp h
      split at h
      · next hdescends =>
        obtain ⟨_, _, h⟩ := bind_eq_ok_iff.mp h
        cases h
        exact .inr ⟨_, hq, hdescends⟩
      · obtain ⟨_, _, h⟩ := bind_eq_ok_iff.mp h
        cases h
        exact .inl rfl
    · cases h

theorem length_of_precondition {m m' : Memory α} {x g r : List α}
    (h : m.precondition x g = .ok (r, m')) : r.length = x.length := by
  obtain ⟨hlength, rfl | ⟨_, hq, _⟩⟩ := precondition_eq_ok h
  · exact hlength.symm
  · exact (length_of_twoLoop hq).trans hlength.symm

namespace Holds

variable {m m' : Memory α} {n : Nat} {visits : List (Visit α)} {x g r : List α}

theorem empty (capacity n : Nat) : Holds ({ capacity } : Memory α) n [] where
  lastState := rfl
  lastGradient := rfl
  pairs := rfl
  count := by
    simp only [List.length_nil]
    omega
  sizes := by simp

theorem eq_nil_iff (h : m.Holds n visits) : visits = [] ↔ m.steps = 0 := by
  have := h.count
  rw [← List.length_eq_zero_iff]
  omega

theorem eq_empty (h : m.Holds n []) : m = { capacity := m.capacity } := by
  have hsteps := h.eq_nil_iff.mp rfl
  obtain ⟨hstate, hgradient, hpairs, _, _⟩ := h
  cases m
  simp_all

theorem single (capacity : Nat) (hx : x.length = n) (hg : g.length = n) :
    Holds ⟨capacity, some x, some g, [], 1⟩ n [⟨x, g⟩] where
  lastState := rfl
  lastGradient := rfl
  pairs := rfl
  count := by simp only [List.length_singleton]; omega
  sizes := by simp [hx, hg]

/-- Another visit, which may push the oldest one out. -/
theorem push (h : m.Holds n visits) (hx : x.length = n) (hg : g.length = n) :
    Holds ⟨m.capacity, some x, some g,
      differences ((⟨x, g⟩ :: visits).take (m.capacity + 1)), m.steps + 1⟩ n
      ((⟨x, g⟩ :: visits).take (m.capacity + 1)) where
  lastState := rfl
  lastGradient := rfl
  pairs := rfl
  count := by
    have := h.count
    simp only [List.length_take, List.length_cons]
    omega
  sizes := by
    intro v hv
    rcases List.mem_cons.mp (List.mem_of_mem_take hv) with rfl | hv
    · exact ⟨hx, hg⟩
    · exact h.sizes v hv

/-- What a call computes with: the differences that it keeps. -/
theorem window_eq (h : m.Holds n visits) (x g : List α) :
    m.window x g = differences ((⟨x, g⟩ :: visits).take (m.capacity + 1)) := by
  rw [differences_take, window, h.lastState, h.lastGradient]
  cases visits with
  | nil => simp
  | cons v visits =>
    rw [differences_cons, h.pairs]
    rfl

/-- What a call computes: on an empty memory the gradient, else the estimate if it descends. -/
theorem precondition_eq (h : m.Holds n visits) (hx : x.length = n) (hg : g.length = n) :
    m.precondition x g =
      if m.steps = 0 then .ok (g, ⟨m.capacity, some x, some g, [], 1⟩)
      else
        let kept := (⟨x, g⟩ :: visits).take (m.capacity + 1)
        twoLoop (differences kept) g >>= fun r =>
          if Scalar.less (-Vec.dot r g) 0.0 then
            .ok (r, ⟨m.capacity, some x, some g, differences kept, m.steps + 1⟩)
          else .ok (g, ⟨m.capacity, some x, some g, [], 1⟩) := by
  by_cases hsteps : m.steps = 0
  · simp [precondition, require, hx, hg, hsteps, restart_eq, bind, Except.bind, pure, Except.pure]
  · cases visits with
    | nil => exact absurd (h.eq_nil_iff.mp rfl) hsteps
    | cons v visits =>
      obtain ⟨hv, hv'⟩ := h.sizes v List.mem_cons_self
      rw [if_neg hsteps, precondition_eq_window hsteps h.lastState h.lastGradient (hx.trans hv.symm)
        (hg.trans hv'.symm) (hx.trans hg.symm), h.window_eq]

/-- After a call the memory holds the visit, alone or with those before it. -/
theorem of_precondition (h : m.Holds n visits) (hx : x.length = n) (hg : g.length = n)
    (hr : m.precondition x g = .ok (r, m')) :
    m'.capacity = m.capacity ∧
      (m'.Holds n [⟨x, g⟩] ∧ m'.steps = 1 ∧ r = g ∨
        m'.Holds n ((⟨x, g⟩ :: visits).take (m.capacity + 1)) ∧ m'.steps = m.steps + 1 ∧
          twoLoop m'.pairs g = .ok r) := by
  rw [h.precondition_eq hx hg] at hr
  split at hr
  · cases hr
    exact ⟨rfl, .inl ⟨.single _ hx hg, rfl, rfl⟩⟩
  · obtain ⟨q, hq, hr⟩ := bind_eq_ok_iff.mp hr
    split at hr
    · cases hr
      exact ⟨rfl, .inr ⟨h.push hx hg, rfl, hq⟩⟩
    · cases hr
      exact ⟨rfl, .inl ⟨.single _ hx hg, rfl, rfl⟩⟩

/-- A call on vectors of the right length fails on a curvature of zero only. -/
theorem precondition_eq_error_iff (h : m.Holds n visits) (hx : x.length = n) (hg : g.length = n)
    {cause : Fault} : m.precondition x g = .error cause ↔
      cause = .zeroDivisor ∧ ∃ p ∈ m.window x g, Scalar.same p.curvature 0.0 = true := by
  have hfits := fits_differences (h.push hx hg).sizes
  rw [← hg] at hfits
  rw [h.precondition_eq hx hg, h.window_eq]
  split
  · next hsteps =>
    -- The first call of a phase has no differences.
    obtain rfl := h.eq_nil_iff.mpr hsteps
    simp
  · rw [bind_eq_error_iff, twoLoop_eq_error_iff hfits, or_iff_left]
    rintro ⟨r, _, hr⟩
    split at hr <;> cases hr

end Holds

end Memory

end Lbfgs

end DiagramLayout

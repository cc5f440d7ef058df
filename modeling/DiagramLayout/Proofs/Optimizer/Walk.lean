import DiagramLayout.Optimizer.Phase
import DiagramLayout.Proofs.Energy.Evaluated
import DiagramLayout.Proofs.Lbfgs.Window
import DiagramLayout.Proofs.LineSearch

/-!
# Iterations of a phase

* `Optimizer.IsReading`, `Optimizer.Iterates`: what is read at a point, and how one iteration ends;
* `Optimizer.Walk`: the iterations of a phase that moved on;
* `Optimizer.Ended`, `Optimizer.descend_ended`: a phase is a walk and one last iteration;
  `Optimizer.descend_eq_error_iff`: where it is interrupted;
* `WeightedEnergy.Recalls`: a memory of visits to the points of a path; `Walk.recalls`: what the
  memory recalls after a walk.
-/

namespace DiagramLayout

variable {α : Type} [Scalar α]

@[simp] theorem Interruption.lift_eq_ok_iff {β : Type} {r : Except Fault β} {b : β} :
    Interruption.lift r = .ok b ↔ r = .ok b := by
  cases r <;> simp [lift]

@[simp] theorem Interruption.lift_eq_error_iff {β : Type} {r : Except Fault β}
    {cause : Interruption} :
    Interruption.lift r = .error cause ↔ ∃ fault, r = .error fault ∧ cause = .fault fault := by
  cases r <;> simp [lift, eq_comm]

theorem Interruption.lift_ne_numeric {β : Type} {r : Except Fault β} {cause : NonFinite} :
    Interruption.lift r ≠ .error (.numeric cause) := by simp

theorem ensureFinite_eq_ok_iff {q : Quantity} {v : List α} :
    ensureFinite q v = .ok () ↔ ∀ x ∈ v, Scalar.isFinite x = true := by
  have hpositions : Vec.nonFinite v = [] ↔ ∀ x ∈ v, Scalar.isFinite x = true := by
    rw [Vec.nonFinite, List.filterMap_eq_nil_iff]
    constructor
    · intro h x hx
      obtain ⟨i, hi⟩ := List.mem_iff_getElem?.mp hx
      simpa using h (x, i) (List.mem_zipIdx_iff_getElem?.mpr hi)
    · rintro h ⟨x, i⟩ hx
      exact if_pos (h x (List.mem_of_getElem? (List.mem_zipIdx_iff_getElem?.mp hx)))
  rw [← hpositions, ensureFinite]
  split <;> simp_all

theorem ensureFinite_eq_error {q : Quantity} {v : List α} {cause : Interruption}
    (h : ensureFinite q v = .error cause) : cause = .numeric ⟨q, Vec.nonFinite v⟩ := by
  unfold ensureFinite at h
  split at h
  · cases h
  · cases h; rfl

namespace Optimizer

variable {o : Optimizer α} {s : State α} {e : WeightedEnergy α} {xs : List α} {m : Lbfgs.Memory α}

/-! ## Single iterations -/

/-- What was read at a point with a memory. -/
structure IsReading (e : WeightedEnergy α) (m : Lbfgs.Memory α) (xs : List α) (r : Reading α) :
    Prop where
  finite : ensureFinite .values xs = .ok ()
  energy : e.value xs = .ok r.energy
  gradient : e.gradient xs = .ok r.slopes.gradient
  energy_finite : ensureFinite .energy [r.energy] = .ok ()
  gradient_finite : ensureFinite .gradient r.slopes.gradient = .ok ()
  direction : m.precondition xs r.slopes.gradient = .ok (r.slopes.direction, r.memory)
  decrement : r.decrement = Vec.dot r.slopes.gradient r.slopes.direction

theorem read_isReading {r : Reading α} (h : read e m xs = .ok r) : IsReading e m xs r := by
  unfold read at h
  obtain ⟨_, hfinite, h⟩ := bind_eq_ok_iff.mp h
  obtain ⟨energy, henergy, h⟩ := bind_eq_ok_iff.mp h
  obtain ⟨gradient, hgradient, h⟩ := bind_eq_ok_iff.mp h
  obtain ⟨_, henergy', h⟩ := bind_eq_ok_iff.mp h
  obtain ⟨_, hgradient', h⟩ := bind_eq_ok_iff.mp h
  obtain ⟨⟨direction, memory⟩, hdirection, h⟩ := bind_eq_ok_iff.mp h
  cases h
  exact ⟨hfinite, Interruption.lift_eq_ok_iff.mp henergy, Interruption.lift_eq_ok_iff.mp hgradient,
    henergy', hgradient', Interruption.lift_eq_ok_iff.mp hdirection, rfl⟩

/-- The ways in which an iteration ends. -/
inductive Iterates (o : Optimizer α) (e : WeightedEnergy α) (xs : List α) (m : Lbfgs.Memory α) :
    Iterate α → Prop where
  | unread {cause : Interruption} : read e m xs = .error cause →
      Iterates o e xs m (.interrupted [] cause)
  | settled {r : Reading α} : IsReading e m xs r → o.breaksEarly = true →
      phaseConverged r.decrement o.phaseStop = true → Iterates o e xs m (.settled r)
  | unsearched {r : Reading α} {cause : Fault} : IsReading e m xs r →
      o.stepLength e xs r = .error cause → Iterates o e xs m (.interrupted [] (.fault cause))
  | unfinished {r : Reading α} {found : LineSearch.Result α} {cause : Interruption} :
      IsReading e m xs r → o.stepLength e xs r = .ok found →
      ensureFinite .update (Vec.sub xs (Vec.scale found.step r.slopes.direction)) = .error cause →
      Iterates o e xs m (.interrupted found.trials cause)
  | moved {r : Reading α} {trials : List (LineSearch.Trial α)} {step : α} : IsReading e m xs r →
      (o.breaksEarly && phaseConverged r.decrement o.phaseStop) = false →
      o.stepLength e xs r = .ok ⟨step, trials⟩ →
      ensureFinite .update (Vec.sub xs (Vec.scale step r.slopes.direction)) = .ok () →
      Iterates o e xs m (.moved r trials step (Vec.sub xs (Vec.scale step r.slopes.direction)))

theorem iterates (o : Optimizer α) (e : WeightedEnergy α) (xs : List α) (m : Lbfgs.Memory α) :
    Iterates o e xs m (o.iterate e xs m) := by
  unfold iterate
  split
  · next hread => exact .unread hread
  · next r hread =>
    have reading := read_isReading hread
    split
    · next hconverged =>
      rw [Bool.and_eq_true] at hconverged
      exact .settled reading hconverged.1 hconverged.2
    · next hgoing =>
      split
      · next hsearch => exact .unsearched reading hsearch
      · next found hsearch =>
        simp only
        split
        · next hfinite => exact .unfinished reading hsearch hfinite
        · next hfinite => exact .moved reading (by simpa using hgoing) hsearch hfinite

theorem iterate_settled {r : Reading α} (h : o.iterate e xs m = .settled r) :
    IsReading e m xs r ∧ o.breaksEarly = true ∧ phaseConverged r.decrement o.phaseStop = true := by
  have hends := o.iterates e xs m
  rw [h] at hends
  cases hends with
  | settled reading hearly hconverged => exact ⟨reading, hearly, hconverged⟩

theorem iterate_moved {r : Reading α} {trials : List (LineSearch.Trial α)} {step : α} {next : List α}
    (h : o.iterate e xs m = .moved r trials step next) :
    IsReading e m xs r ∧ (o.breaksEarly && phaseConverged r.decrement o.phaseStop) = false ∧
      o.stepLength e xs r = .ok ⟨step, trials⟩ ∧
      next = Vec.sub xs (Vec.scale step r.slopes.direction) ∧ ensureFinite .update next = .ok () := by
  have hends := o.iterates e xs m
  rw [h] at hends
  cases hends with
  | moved reading hgoing hfound hupdate => exact ⟨reading, hgoing, hfound, rfl, hupdate⟩

/-! ## Walks -/

/-- What is reported of an iteration. -/
def row (s : State α) (number : Nat) (xs : List α) (r : Reading α) (step : α) : Iteration α :=
  { round := s.round, phase := s.phase, number, weight := s.weight, energy := r.energy,
    decrement := r.decrement, step, values := xs }

/-- Iterations from a point and a memory that all moved on, their number, the events that they report
and where they lead. -/
inductive Walk (o : Optimizer α) (s : State α) (e : WeightedEnergy α) (start : List α)
    (memory : Lbfgs.Memory α) : Nat → List (Event α) → List α → Lbfgs.Memory α → Prop where
  | start : Walk o s e start memory 0 [] start memory
  | move {number : Nat} {events : List (Event α)} {xs next : List α} {m : Lbfgs.Memory α}
      {r : Reading α} {trials : List (LineSearch.Trial α)} {step : α} :
      Walk o s e start memory number events xs m →
      o.iterate e xs m = .moved r trials step next →
      Walk o s e start memory (number + 1)
        (events ++ trials.map .trial ++ [.iteration (row s number xs r step)]) next r.memory

/-- How a phase ends: its last iteration settles, uses up the budget, or is interrupted. -/
inductive Ended (o : Optimizer α) (s : State α) (e : WeightedEnergy α) (start : List α)
    (memory : Lbfgs.Memory α) (further : Nat) :
    List (Event α) → Except Interruption (Descent α) → Prop where
  | settled {number : Nat} {events : List (Event α)} {xs : List α} {m : Lbfgs.Memory α}
      {r : Reading α} : Walk o s e start memory number events xs m → number ≤ further →
      o.iterate e xs m = .settled r → Ended o s e start memory further events (.ok ⟨xs, r⟩)
  | spent {events : List (Event α)} {xs next : List α} {m : Lbfgs.Memory α} {r : Reading α}
      {trials : List (LineSearch.Trial α)} {step : α} :
      Walk o s e start memory further events xs m → o.iterate e xs m = .moved r trials step next →
      Ended o s e start memory further
        (events ++ trials.map .trial ++ [.iteration (row s further xs r step)]) (.ok ⟨next, r⟩)
  | interrupted {number : Nat} {events : List (Event α)} {xs : List α} {m : Lbfgs.Memory α}
      {trials : List (LineSearch.Trial α)} {cause : Interruption} :
      Walk o s e start memory number events xs m → number ≤ further →
      o.iterate e xs m = .interrupted trials cause →
      Ended o s e start memory further (events ++ trials.map .trial) (.error cause)

theorem descend_ended (o : Optimizer α) (s : State α) (e : WeightedEnergy α) (further : Nat)
    (start : List α) (memory : Lbfgs.Memory α) :
    Ended o s e start memory further (o.descend s e further 0 start memory).1
      (o.descend s e further 0 start memory).2 := by
  -- A walk so far is continued by the steps that are left.
  have continued (left number : Nat) (before : List (Event α)) (xs : List α) (m : Lbfgs.Memory α)
      (walk : Walk o s e start memory number before xs m) :
      Ended o s e start memory (number + left) (before ++ (o.descend s e left number xs m).1)
        (o.descend s e left number xs m).2 := by
    induction left generalizing number before xs m with
    | zero =>
      unfold descend
      cases hiterate : o.iterate e xs m with
      | interrupted trials cause => exact .interrupted walk le_rfl hiterate
      | settled r => simpa using Ended.settled walk le_rfl hiterate
      | moved r trials step next => simpa [row] using Ended.spent walk hiterate
    | succ left ih =>
      unfold descend
      cases hiterate : o.iterate e xs m with
      | interrupted trials cause => exact .interrupted walk (Nat.le_add_right _ _) hiterate
      | settled r => simpa using Ended.settled walk (Nat.le_add_right _ (left + 1)) hiterate
      | moved r trials step next =>
        have hrest := ih (number + 1) _ next r.memory (walk.move hiterate)
        simpa [row, Nat.add_comm, Nat.add_left_comm] using hrest
  simpa using continued further 0 [] start memory .start

variable {start : List α} {memory : Lbfgs.Memory α}

/-- A phase goes the way of a walk. -/
theorem Walk.descend {number : Nat} {events : List (Event α)}
    (walk : Walk o s e start memory number events xs m) (more : Nat) :
    (o.descend s e (number + more) 0 start memory).2 = (o.descend s e more number xs m).2 := by
  induction walk generalizing more with
  | start => rw [Nat.zero_add]
  | @move number _ _ _ _ _ _ _ _ hiterate ih =>
    rw [show number + 1 + more = number + (more + 1) by omega, ih, Optimizer.descend]
    simp only [hiterate]

/-- A phase is interrupted exactly where an iteration on its way is. -/
theorem descend_eq_error_iff {further : Nat} {cause : Interruption} :
    (o.descend s e further 0 start memory).2 = .error cause ↔
      ∃ number events xs m trials, Walk o s e start memory number events xs m ∧ number ≤ further ∧
        o.iterate e xs m = .interrupted trials cause := by
  constructor
  · intro h
    have hended := o.descend_ended s e further start memory
    rw [h] at hended
    generalize (o.descend s e further 0 start memory).1 = events at hended
    cases hended with
    | interrupted walk hnumber hiterate => exact ⟨_, _, _, _, _, walk, hnumber, hiterate⟩
  · rintro ⟨number, events, xs, m, trials, walk, hnumber, hiterate⟩
    obtain ⟨more, rfl⟩ := Nat.exists_eq_add_of_le hnumber
    rw [walk.descend, Optimizer.descend.eq_def]
    simp only [hiterate]

/-! ## The number of variables -/

theorem Walk.length_eq {number : Nat} {events : List (Event α)}
    (walk : Walk o s e start memory number events xs m) : xs.length = start.length := by
  induction walk with
  | start => rfl
  | move _ hiterate ih =>
    obtain ⟨reading, _, _, rfl, _⟩ := iterate_moved hiterate
    simp [Lbfgs.Memory.length_of_precondition reading.direction, ih]

theorem Ended.length_eq {further : Nat} {events : List (Event α)} {d : Descent α}
    (h : Ended o s e start memory further events (.ok d)) : d.values.length = start.length := by
  cases h with
  | settled walk _ _ => exact walk.length_eq
  | spent walk hiterate => exact (walk.move hiterate).length_eq

end Optimizer

/-! ## What a memory recalls -/

/-- The points of the iterations among events, the newest first. -/
def Event.visited (events : List (Event α)) : List (List α) :=
  (events.filterMap fun
    | .iteration i => some i.values
    | _ => none).reverse

namespace Event

omit [Scalar α]

@[simp] theorem visited_nil : visited ([] : List (Event α)) = [] := rfl

@[simp] theorem visited_append (before after : List (Event α)) :
    visited (before ++ after) = visited after ++ visited before := by simp [visited]

@[simp] theorem visited_trials (trials : List (LineSearch.Trial α)) :
    visited (trials.map .trial) = [] := by simp [visited]

@[simp] theorem visited_iteration (i : Iteration α) :
    visited [.iteration i] = [i.values] := rfl

theorem mem_visited_iff {events : List (Event α)} {xs : List α} :
    xs ∈ visited events ↔ ∃ i, .iteration i ∈ events ∧ i.values = xs := by
  simp only [visited, List.mem_reverse, List.mem_filterMap]
  constructor
  · rintro ⟨event, hevent, hvalues⟩
    cases event with
    | iteration i => exact ⟨i, hevent, Option.some.inj hvalues⟩
    | trial _ | status _ _ | warning _ => cases hvalues
  · rintro ⟨i, hi, hvalues⟩
    exact ⟨.iteration i, hi, congrArg some hvalues⟩

end Event

namespace WeightedEnergy

open Lbfgs

/-- The differences that a memory holds are between the newest points of a path, with the gradients
of the energy there. -/
def Recalls (e : WeightedEnergy α) (m : Memory α) (path : List (List α)) : Prop :=
  ∃ visits : List (Visit α), m.Holds e.energy.count visits ∧
    (∀ v ∈ visits, e.gradient v.state = .ok v.gradient) ∧ visits.map Visit.state <+: path

variable {e : WeightedEnergy α} {m : Memory α} {path : List (List α)}

theorem recalls_empty (e : WeightedEnergy α) (capacity : Nat) (path : List (List α)) :
    e.Recalls { capacity } path := ⟨[], .empty _ _, by simp, List.nil_prefix⟩

end WeightedEnergy

namespace Optimizer

open Lbfgs WeightedEnergy

variable {o : Optimizer α} {s : State α} {e : WeightedEnergy α} {xs start : List α}
  {m memory : Memory α} {path : List (List α)}

namespace IsReading

variable {r : Reading α} (reading : IsReading e m xs r)

include reading

theorem length_values : xs.length = e.energy.count := WeightedEnergy.length_of_value reading.energy

theorem length_gradient : r.slopes.gradient.length = e.energy.count :=
  WeightedEnergy.length_gradient reading.gradient

/-- After a reading the memory recalls its point too. -/
theorem recalls (h : e.Recalls m path) :
    e.Recalls r.memory (xs :: path) ∧ r.memory.capacity = m.capacity ∧
      r.slopes.direction.length = e.energy.count := by
  obtain ⟨visits, holds, hgradient, hpath⟩ := h
  have hx := reading.length_values
  have hg := reading.length_gradient
  have hdirection := (Memory.length_of_precondition reading.direction).trans hx
  obtain ⟨hcapacity, hholds⟩ := holds.of_precondition hx hg reading.direction
  refine ⟨?_, hcapacity, hdirection⟩
  rcases hholds with ⟨hholds, _⟩ | ⟨hholds, _⟩
  · refine ⟨_, hholds, ?_, ?_⟩
    · simpa using reading.gradient
    · simp
  · refine ⟨_, hholds, ?_, ?_⟩
    · intro v hv
      rcases List.mem_cons.mp (List.mem_of_mem_take hv) with rfl | hv
      · exact reading.gradient
      · exact hgradient v hv
    · rw [List.map_take, List.map_cons]
      exact (List.take_prefix _ _).trans (List.prefix_cons_inj xs |>.mpr hpath)

end IsReading

/-- After a walk the memory recalls the points of its iterations, and the variables are as many as
before. -/
theorem Walk.recalls {number : Nat} {events : List (Event α)}
    (walk : Walk o s e start memory number events xs m) (h : e.Recalls memory path)
    (hstart : start.length = e.energy.count) :
    e.Recalls m (Event.visited events ++ path) ∧ m.capacity = memory.capacity ∧
      xs.length = e.energy.count := by
  induction walk with
  | start => exact ⟨h, rfl, hstart⟩
  | @move number events xs next m r trials step _ hiterate ih =>
    obtain ⟨hrecalls, hcapacity, hlength⟩ := ih
    obtain ⟨reading, _, _, rfl, _⟩ := iterate_moved hiterate
    obtain ⟨hrecalls', hcapacity', hdirection⟩ := reading.recalls hrecalls
    refine ⟨by simpa [row] using hrecalls', hcapacity'.trans hcapacity, ?_⟩
    simp [hlength, hdirection]

end Optimizer

end DiagramLayout

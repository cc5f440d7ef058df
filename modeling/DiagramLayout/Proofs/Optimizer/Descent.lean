import DiagramLayout.Proofs.Lbfgs.Positive
import DiagramLayout.Proofs.Optimizer.Memory
import DiagramLayout.Proofs.Optimizer.Weight

/-!
# Directions that descend

An estimate that would not descend is dropped, and the gradient itself takes its place. So in exact
arithmetic the decrement, which decides whether a phase has converged, is never negative, whatever
the memory holds, and every search goes downhill.

* `Slopes.Descends`, `Optimizer.IsReading.descends`: the direction that is read at a point;
* `Optimizer.IsReading.startSlope_eq`, `Optimizer.IsReading.startSlope_neg`: the slope that a search
  starts with;
* `Optimizer.ComesTo`: the iterations of the phases from a state on;
* `Optimizer.Moves`, `Optimizer.step_iteration`: the iterations that a step reports;
* `Optimizer.DescendsAt`, `Optimizer.History.descendsAt`: the iterations that a run has reported;
* `Optimizer.Rests`, `Optimizer.Stepped.rests`: what a phase that has converged has read last;
* `Optimizer.History.always_descends`: all of it for every state of a run.
-/

namespace DiagramLayout

/-- A step against the direction descends: its product with the gradient is not negative, and zero only
with the gradient. -/
structure Slopes.Descends {α : Type} [FieldScalar α] (sl : Slopes α) : Prop where
  nonneg : 0 ≤ Vec.dot sl.gradient sl.direction
  flat : Vec.dot sl.gradient sl.direction = 0 → ∀ a ∈ sl.gradient, a = 0

namespace Optimizer

/-! ## The iterations of a phase -/

section
variable {α : Type} [Scalar α] {o : Optimizer α} {s : State α} {e : WeightedEnergy α}

/-- The phases from a state on come to a point with a memory, and this is read there. -/
structure ComesTo (o : Optimizer α) (s : State α) (e : WeightedEnergy α) (xs : List α)
    (m : Lbfgs.Memory α) (r : Reading α) : Prop where
  running : s.status = .running
  objective : s.objective = some e
  walk : ∃ number events, Walk o s e s.values s.memory number events xs m
  read : Optimizer.read e m xs = .ok r

/-- An iteration that a phase from a state reports: it moved on from where those before it led. -/
def Moves (o : Optimizer α) (s : State α) (e : WeightedEnergy α) (i : Iteration α) : Prop :=
  ∃ number events xs m r trials step next, Walk o s e s.values s.memory number events xs m ∧
    o.iterate e xs m = .moved r trials step next ∧ i = row s number xs r step

theorem Walk.moves {number : Nat} {events : List (Event α)} {xs : List α} {m : Lbfgs.Memory α}
    (walk : Walk o s e s.values s.memory number events xs m) :
    ∀ i, .iteration i ∈ events → Moves o s e i := by
  induction walk with
  | start => simp
  | move walk hiterate ih =>
    intro i hi
    simp only [List.mem_append, List.mem_map, List.mem_singleton, reduceCtorEq, and_false,
      exists_false, or_false, Event.iteration.injEq] at hi
    rcases hi with hi | rfl
    · exact ih i hi
    · exact ⟨_, _, _, _, _, _, _, _, walk, hiterate, rfl⟩

theorem Ended.moves {further : Nat} {events : List (Event α)}
    {ending : Except Interruption (Descent α)}
    (h : Ended o s e s.values s.memory further events ending) :
    ∀ i, .iteration i ∈ events → Moves o s e i := by
  cases h with
  | settled walk _ _ => exact walk.moves
  | spent walk hiterate => exact (walk.move hiterate).moves
  | interrupted walk _ _ =>
    intro i hi
    exact walk.moves i (by simpa using hi)

/-- The iterations that a step reports are those of its phase, however the step ends. -/
theorem step_iteration {store : Option (Shapes.Store α)} {budget : Int} {i : Iteration α}
    (h : .iteration i ∈ (o.step s store budget).events) :
    ∃ e, s.status = .running ∧ s.objective = some e ∧ Moves o s e i := by
  rcases mem_step_events h with ⟨e, further, hrunning, he, hphase⟩ | h | ⟨_, _, h⟩ | ⟨_, h⟩
  · exact ⟨e, hrunning, he, (o.descend_ended s e further s.values s.memory).moves i hphase⟩
  · cases h
  · cases h
  · cases h

/-- What a phase ends with was read at some point. -/
theorem Ended.reading {start : List α} {memory : Lbfgs.Memory α} {further : Nat}
    {events : List (Event α)} {d : Descent α}
    (h : Ended o s e start memory further events (.ok d)) : ∃ m xs, IsReading e m xs d.reading := by
  cases h with
  | settled _ _ hiterate => exact ⟨_, _, (iterate_settled hiterate).1⟩
  | spent _ hiterate => exact ⟨_, _, (iterate_moved hiterate).1⟩

end

variable {α : Type} [FieldScalar α] {o : Optimizer α} {s s₀ s' : State α} {e : WeightedEnergy α}
  {m : Lbfgs.Memory α} {xs : List α} {r : Reading α} {log events : List (Event α)}

/-! ## What is read at a point -/

theorem IsReading.descends (reading : IsReading e m xs r) : r.slopes.Descends where
  nonneg := by
    rw [Vec.dot_comm]
    exact Lbfgs.Memory.precondition_nonneg reading.direction
  flat := by
    intro hzero
    by_contra hgradient
    push Not at hgradient
    have hpos := Lbfgs.Memory.precondition_pos reading.direction hgradient
    rw [Vec.dot_comm, hzero] at hpos
    exact hpos.false

/-- A search starts with the negative of the decrement as its slope. -/
theorem IsReading.startSlope_eq (reading : IsReading e m xs r) :
    (line e xs r).startSlope = -r.decrement := by
  rw [reading.decrement, line, Vec.dot_eq_pairing, Vec.pairing_neg, Vec.dot_eq_pairing, pairing_comm]

/-- Unless the gradient is zero it starts downhill. -/
theorem IsReading.startSlope_neg (reading : IsReading e m xs r)
    (hgradient : ∃ a ∈ r.slopes.gradient, a ≠ 0) : (line e xs r).startSlope < 0 := by
  have hpos := Lbfgs.Memory.precondition_pos reading.direction hgradient
  rw [reading.startSlope_eq, reading.decrement, Vec.dot_comm]
  exact neg_lt_zero.mpr hpos

/-! ## Iterations that go on -/

/-- Where phases end early, an iteration that goes on has a decrement that is not small. -/
theorem phaseStop_le (hearly : o.breaksEarly = true)
    (hgoing : (o.breaksEarly && phaseConverged r.decrement o.phaseStop) = false) :
    o.phaseStop ≤ r.decrement := by
  rw [hearly, Bool.true_and, phaseConverged] at hgoing
  by_contra hsmall
  rw [(FieldScalar.less_iff _ _).mpr (not_le.mp hsmall)] at hgoing
  cases hgoing

theorem going_of_ne_settled (hread : read e m xs = .ok r) (h : o.iterate e xs m ≠ .settled r) :
    (o.breaksEarly && phaseConverged r.decrement o.phaseStop) = false := by
  by_contra hdone
  apply h
  rw [iterate, hread]
  exact if_pos (by simpa using hdone)

/-! ## Reported iterations -/

/-- The decrement that an iteration reports is that of the gradient at its variables and of a direction
that descends. Where phases end early it is not small. -/
def DescendsAt (o : Optimizer α) (energy : Energy α) (i : Iteration α) : Prop :=
  ∃ sl : Slopes α, (⟨energy, i.weight⟩ : WeightedEnergy α).gradient i.values = .ok sl.gradient ∧
    i.decrement = Vec.dot sl.gradient sl.direction ∧ sl.Descends ∧
    (o.breaksEarly = true → o.phaseStop ≤ i.decrement)

theorem Moves.descendsAt {energy : Energy α} {i : Iteration α}
    (h : Moves o s ⟨energy, s.weight⟩ i) : DescendsAt o energy i := by
  obtain ⟨_, _, _, _, r, _, _, _, _, hiterate, rfl⟩ := h
  obtain ⟨reading, hgoing, _⟩ := iterate_moved hiterate
  exact ⟨r.slopes, reading.gradient, reading.decrement, reading.descends,
    fun hearly => phaseStop_le hearly hgoing⟩

theorem Coherent.step_descendsAt (c : Coherent o s₀ log s) {energy : Energy α}
    (henergy : s.energy = some energy) {store : Option (Shapes.Store α)} {budget : Int} :
    ∀ i, .iteration i ∈ (o.step s store budget).events → DescendsAt o energy i := by
  intro i hi
  obtain ⟨e, hrunning, he, hmoves⟩ := step_iteration hi
  obtain rfl := Option.some.inj (he.symm.trans (c.objective_eq henergy (.inl hrunning)).2)
  exact hmoves.descendsAt

/-- All iterations that a run has reported. -/
theorem History.descendsAt (h : o.History s₀ log s) {energy : Energy α}
    (henergy : s₀.energy = some energy) : ∀ i, .iteration i ∈ log → DescendsAt o energy i := by
  refine h.grows (P := fun log _ => ∀ i, .iteration i ∈ log → DescendsAt o energy i) ?_ ?_ ?_
  · intro _ _ _ _ _ i hi
    cases hi
  · intro log s next store budget history _ hlog i hi
    rcases List.mem_append.mp hi with hi | hi
    · exact hlog i hi
    · exact history.coherent.step_descendsAt (history.coherent.energy.trans henergy) i hi
  · intro log s s' initial _ hresample hlog i hi
    obtain ⟨_, _, hevents, _⟩ := resample_eq_ok hresample
    rcases List.mem_append.mp hi with hi | hi
    · exact hlog i hi
    · rw [hevents, Event.change] at hi
      split at hi
      · cases hi
      · cases List.mem_singleton.mp hi

/-! ## Ends of phases -/

/-- A phase has converged: what it read last, a gradient of the round's energy and a direction that
descends, has a small decrement. -/
def Rests (o : Optimizer α) (s : State α) : Prop :=
  ∃ e xs sl, s.objective = some e ∧ e.gradient xs = .ok sl.gradient ∧ s.lastSlopes = some sl ∧
    sl.Descends ∧ Vec.dot sl.gradient sl.direction < o.phaseStop

theorem Stepped.rests {budget : Nat} (h : Stepped o s budget s' events)
    (hs : s.status = .settled ∨ s.status = .converged → Rests o s)
    (hdone : s'.status = .settled ∨ s'.status = .converged) : Rests o s' := by
  cases h with
  | idle => exact hs hdone
  | started => simp at hdone
  | @phase e further d _ _ _ he _ hended =>
    obtain ⟨m, xs, reading⟩ := hended.reading
    refine ⟨e, xs, d.reading.slopes, he, reading.gradient, rfl, reading.descends, ?_⟩
    rw [← reading.decrement]
    exact (FieldScalar.less_iff _ _).mp (phaseConverged_of_done hdone)
  | converged _ hsettled =>
    obtain ⟨e, xs, sl, he, hgradient, hlast, hdescends, hsmall⟩ := hs (.inl hsettled)
    exact ⟨e, xs, sl, he, hgradient, hlast, hdescends, hsmall⟩
  | continued => simp at hdone
  | failed => simp at hdone

theorem History.rests (h : o.History s₀ log s) :
    s.status = .settled ∨ s.status = .converged → Rests o s := by
  refine h.steps (P := fun _ s => s.status = .settled ∨ s.status = .converged → Rests o s) ?_ ?_ ?_
  · intro _ _ _ _ hstart hdone
    obtain ⟨_, _, _, _, _, _, rfl⟩ := start_eq_ok hstart
    simp at hdone
  · intro _ _ _ _ _ _ hstep hs
    exact hstep.rests hs
  · intro _ _ _ _ _ hresample _ hdone
    obtain ⟨_, _, _, rfl⟩ := resample_eq_ok hresample
    simp at hdone

/-! ## Every state of a run -/

/-- **The direction always descends.** In exact arithmetic, whatever a run has done before, the decrement
of an iteration is not negative, and zero only with the gradient. The search starts with its negative
as the slope: downhill, unless the gradient is zero, and where phases end early by at least the
tolerance. So no phase has converged, and no iteration is reported, with an estimate that ascends. -/
theorem History.always_descends (h : o.History s₀ log s) (hcheck : o.check = .ok ()) :
    (∀ e xs m r, ComesTo o s e xs m r →
      r.decrement = Vec.dot r.slopes.gradient r.slopes.direction ∧ 0 ≤ r.decrement ∧
      (r.decrement = 0 → ∀ a ∈ r.slopes.gradient, a = 0) ∧
      (o.iterate e xs m ≠ .settled r →
        (line e xs r).startSlope = -r.decrement ∧
        ((∃ a ∈ r.slopes.gradient, a ≠ 0) → (line e xs r).startSlope < 0) ∧
        (o.breaksEarly = true →
          (line e xs r).startSlope ≤ -o.phaseStop ∧ -o.phaseStop < 0))) ∧
    (∃ energy, s.energy = some energy ∧ ∀ store budget i,
      .iteration i ∈ log ++ (o.step s store budget).events → DescendsAt o energy i) ∧
    (s.status = .settled ∨ s.status = .converged → Rests o s) := by
  refine ⟨?_, ?_, h.rests⟩
  · intro e xs m r comes
    have reading := read_isReading comes.read
    obtain ⟨hnonneg, hflat⟩ := reading.descends
    rw [← reading.decrement] at hnonneg hflat
    refine ⟨reading.decrement, hnonneg, hflat, ?_⟩
    intro hmoves
    refine ⟨reading.startSlope_eq, reading.startSlope_neg, ?_⟩
    intro hearly
    have hstop := phaseStop_le hearly (going_of_ne_settled comes.read hmoves)
    rw [reading.startSlope_eq]
    exact ⟨neg_le_neg hstop, neg_lt_zero.mpr (check_eq_ok hcheck).2.2⟩
  · obtain ⟨energy, henergy, _⟩ := h.coherent.ready
    refine ⟨energy, henergy, fun store budget i hi => ?_⟩
    rcases List.mem_append.mp hi with hi | hi
    · exact h.descendsAt (h.coherent.energy.symm.trans henergy) i hi
    · exact h.coherent.step_descendsAt henergy i hi

theorem towardsThree_always_descends : ∃ s₀ log s e r, shortSteps.History s₀ log s ∧
    shortSteps.check = .ok () ∧ s.memory.steps = 2 ∧ ComesTo shortSteps s e s.values s.memory r ∧
      0 < r.decrement ∧ (line e s.values r).startSlope = -r.decrement ∧
      (line e s.values r).startSlope ≤ -shortSteps.phaseStop ∧
      ∃ energy i, s.energy = some energy ∧ .iteration i ∈ log ∧ i.values = [0] ∧
        DescendsAt shortSteps energy i := by
  obtain ⟨s₀, log, s, history, htest⟩ := towardsThree_history
    (fun log s => decide (s.status = .running) && s.memory.steps == 2 &&
      decide ([0] ∈ Event.visited log) &&
      s.objective.any fun e => (read e s.memory s.values).toOption.any fun (r : Reading ℚ) =>
        !phaseConverged r.decrement shortSteps.phaseStop &&
          decide (∃ a ∈ r.slopes.gradient, a ≠ 0)) (by decide +kernel)
  simp only [Bool.and_eq_true, decide_eq_true_eq, Option.any_eq_true, beq_iff_eq,
    Bool.not_eq_true'] at htest
  obtain ⟨⟨⟨hrunning, hsteps⟩, hvisited⟩, e, he, r, hread, hlarge, hgradient⟩ := htest
  obtain ⟨i, hi, hvalues⟩ := Event.mem_visited_iff.mp hvisited
  have hcheck : shortSteps.check = .ok () := by decide +kernel
  have comes : ComesTo shortSteps s e s.values s.memory r :=
    ⟨hrunning, he, ⟨0, [], .start⟩, toOption_eq_some_iff.mp hread⟩
  have hmoves : shortSteps.iterate e s.values s.memory ≠ .settled r := by
    intro hsettled
    rw [(iterate_settled hsettled).2.2] at hlarge
    cases hlarge
  obtain ⟨hphase, ⟨energy, henergy, hlog⟩, _⟩ := history.always_descends hcheck
  obtain ⟨_, _, _, hsearch⟩ := hphase e s.values s.memory r comes
  obtain ⟨hstart, hdownhill, hearly⟩ := hsearch hmoves
  refine ⟨s₀, log, s, e, r, history, hcheck, hsteps, comes, ?_, hstart, (hearly rfl).1, energy, i,
    henergy, hi, hvalues, hlog none 0 i (List.mem_append_left _ hi)⟩
  have hnegative := hdownhill hgradient
  rw [hstart] at hnegative
  exact neg_lt_zero.mp hnegative

end Optimizer

end DiagramLayout

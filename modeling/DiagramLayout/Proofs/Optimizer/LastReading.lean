import DiagramLayout.Proofs.Optimizer.Certificate
import DiagramLayout.Value.Double

/-!
# What a phase leaves recorded

A phase reads the energy and the gradient of a point before it moves on. What it leaves recorded is
what it read last. Where it ended early that belongs to the point recorded with it; where it used up
its budget it belongs to the point of its last iteration, and the point recorded is one step further.
-/

namespace DiagramLayout

namespace Optimizer

section
variable {α : Type} [Scalar α] {o : Optimizer α} {s s₀ s' : State α} {log events : List (Event α)}
  {energy : Energy α}

/-- A phase read last where it ended early, or else at the point of the iteration that used up its
budget. -/
theorem Ended.lastReading {e : WeightedEnergy α} {start : List α} {memory : Lbfgs.Memory α}
    {further : Nat} {d : Descent α} (h : Ended o s e start memory further events (.ok d)) :
    ∃ m xs, IsReading e m xs d.reading ∧
      (o.breaksEarly = true ∧ phaseConverged d.reading.decrement o.phaseStop = true ∧ d.values = xs ∨
        (o.breaksEarly && phaseConverged d.reading.decrement o.phaseStop) = false ∧
          ∃ step, d.values = Vec.sub xs (Vec.scale step d.reading.slopes.direction) ∧
            .iteration (row s further xs d.reading step) ∈ events) := by
  cases h with
  | settled _ _ hiterate =>
    obtain ⟨reading, hearly, hconverged⟩ := iterate_settled hiterate
    exact ⟨_, _, reading, .inl ⟨hearly, hconverged, rfl⟩⟩
  | @spent _ xs _ m _ _ step _ hiterate =>
    obtain ⟨reading, hgoing, _, hnext, _⟩ := iterate_moved hiterate
    exact ⟨m, xs, reading, .inr ⟨hgoing, step, hnext, by simp⟩⟩

/-- The energy and the slopes recorded with a state are what was read at a point. -/
structure ReadAt (energy : Energy α) (s : State α) (xs : List α) (r : Reading α) : Prop where
  objective : s.objective = some ⟨energy, s.weight⟩
  reading : ∃ m, IsReading ⟨energy, s.weight⟩ m xs r
  lastPhase : s.lastPhase = some ⟨s.values, r.energy⟩
  lastSlopes : s.lastSlopes = some r.slopes

/-- A phase that was run to its end by a step. -/
theorem Stepped.ended {budget : Nat} (h : Stepped o s budget s' events)
    (hrunning : s.status = .running) (hbudget : 1 ≤ budget)
    (hgoing : s'.status = .running ∨ s'.status = .settled) :
    ∃ e further d before, s.objective = some e ∧ budget = further + 1 ∧ s' = o.afterPhase s d ∧
      Ended o s e s.values s.memory further before (.ok d) ∧ ∀ event ∈ before, event ∈ events := by
  cases h with
  | idle hidle =>
    rcases hidle with hterminal | ⟨_, _, rfl⟩
    · simp [hrunning, Status.isTerminal] at hterminal
    · omega
  | started _ hfresh => simp [hrunning] at hfresh
  | phase _ _ he hbudget hended =>
    exact ⟨_, _, _, _, he, hbudget, rfl, hended, fun event hevent => List.mem_append_left _ hevent⟩
  | converged _ hsettled => simp [hrunning] at hsettled
  | continued _ hsettled => simp [hrunning] at hsettled
  | failed => simp at hgoing

/-- The end of the round before is kept with the energy at its own point and weight. -/
theorem History.lastRound_value (h : o.History s₀ log s) (hearly : o.breaksEarly = true)
    (hgoing : s.status = .running ∨ s.status = .settled) (hround : s.round ≠ 0)
    (henergy : s.energy = some energy) :
    ∃ t value, RoundBefore o s₀ log s t ∧ s.lastRound = some ⟨t.values, value⟩ ∧
      (⟨energy, t.weight⟩ : WeightedEnergy α).value t.values = .ok value := by
  obtain ⟨t, hbefore, hlast⟩ := (h.certified hearly).kept hgoing hround
  obtain ⟨_, _, _, history, _⟩ := hbefore.passed
  obtain ⟨energy', value, henergy', hend⟩ := (history.certified hearly).ended (.inl hbefore.settled)
  have hsame : energy' = energy := by
    rw [history.coherent.energy, ← h.coherent.energy, henergy] at henergy'
    exact (Option.some.inj henergy').symm
  subst hsame
  exact ⟨t, value, hbefore, hlast.trans hend.recorded, hend.value⟩

/-- **What a phase leaves recorded.** The energy and the gradient recorded by a phase are those of its
round at the point that it read last. Either it ended early, and that is the point recorded, or the
budget was used up, the last iteration was reported there, and the point recorded is one step further.
Where phases end early, a round that has settled has its energy recorded with its own point, and so has
the round before it, with which it is compared. -/
theorem History.phase_recorded (h : o.History s₀ log s) (hrunning : s.status = .running)
    {store : Option (Shapes.Store α)} {budget : Int} (hbudget : 1 ≤ budget)
    (hresult : (o.step s store budget).result = .ok (some s'))
    (hgoing : s'.status = .running ∨ s'.status = .settled) :
    ∃ energy xs r, s'.energy = some energy ∧ ReadAt energy s' xs r ∧
      (o.breaksEarly = true ∧ s'.status = .settled ∧ s'.values = xs ∨
        (o.breaksEarly = true → s'.status = .running) ∧
          ∃ step, s'.values = Vec.sub xs (Vec.scale step r.slopes.direction) ∧
            .iteration (row s (budget.toNat - 1) xs r step) ∈ (o.step s store budget).events) ∧
      (o.breaksEarly = true → s'.status = .settled → 1 < s'.round →
        ∃ t value, RoundBefore o s₀ (log ++ (o.step s store budget).events) s' t ∧
          s'.lastRound = some ⟨t.values, value⟩ ∧
          (⟨energy, t.weight⟩ : WeightedEnergy α).value t.values = .ok value) := by
  have history : o.History s₀ (log ++ (o.step s store budget).events) s' :=
    h.step store budget hresult
  obtain ⟨_, hstepped⟩ := step_stepped hresult
  obtain ⟨e, further, d, events, he, hfurther, hs', hended, hevents⟩ :=
    hstepped.ended hrunning (by omega) hgoing
  simp only [Option.getD_some] at hs'
  obtain ⟨energy, henergy, _⟩ := h.coherent.ready
  obtain rfl := Option.some.inj (he.symm.trans (h.coherent.objective_eq henergy (.inl hrunning)).2)
  have henergy' : s'.energy = some energy := by
    rw [hs']
    exact henergy
  obtain ⟨m, xs, reading, hlast⟩ := hended.lastReading
  refine ⟨energy, xs, d.reading, henergy', ?_, ?_, ?_⟩
  · subst hs'
    exact ⟨he, ⟨m, reading⟩, rfl, rfl⟩
  · rcases hlast with ⟨hearly, hconverged, hvalues⟩ | ⟨hfar, step, hnext, hrow⟩
    · refine .inl ⟨hearly, ?_, ?_⟩
      · simp [hs', afterPhase, hconverged]
      · simpa [hs', afterPhase] using hvalues
    · refine .inr ⟨fun hearly => ?_, step, ?_, ?_⟩
      · have hgoing : phaseConverged d.reading.decrement o.phaseStop = false := by
          simpa [hearly] using hfar
        simp [hs', afterPhase, hgoing]
      · simpa [hs', afterPhase] using hnext
      · have hnumber : budget.toNat - 1 = further := by omega
        rw [hnumber]
        exact hevents _ hrow
  · intro hearly hsettled hround
    exact history.lastRound_value hearly (.inr hsettled) (by omega) henergy'

end

/-! ## A run that records an energy it has left -/

/-- Whether a state records an energy of nine with a point whose energy is zero. -/
def recordsNine (s : State Float) : Bool :=
  match s.energy, s.lastPhase with
  | some energy, some recorded =>
    decide (recorded.energy = 9) &&
      decide ((⟨energy, s.weight⟩ : WeightedEnergy Float).value recorded.values = .ok 0)
  | _, _ => false

/-- A phase of one iteration finds the minimum and records the energy from before. -/
theorem inDoubles_phase : ∃ s₀ log s s' energy recorded, inDoubles.History s₀ log s ∧
    s.status = .running ∧ (inDoubles.step s none 1).result = .ok (some s') ∧
      s'.status = .running ∧ s'.energy = some energy ∧ s'.lastPhase = some recorded ∧
      recorded.energy = 9 ∧
      (⟨energy, s'.weight⟩ : WeightedEnergy Float).value recorded.values = .ok 0 := by
  have h : ((inDoubles.start [⟨"equal", [.varying 0, .number 3], .objective⟩] []
      (.array [.entry 0]) none).result >>= fun s₀ =>
        (inDoubles.run s₀ none 1 1).result >>= fun s =>
          (inDoubles.step s none 1).result.map fun next =>
            decide (s.status = .running) &&
              next.any fun s' => decide (s'.status = .running) && recordsNine s').toOption =
      some true := by decide +kernel
  obtain ⟨s₀, hstart, h⟩ := bind_eq_ok_iff.mp (toOption_eq_some_iff.mp h)
  obtain ⟨s, hrun, h⟩ := bind_eq_ok_iff.mp h
  obtain ⟨next, hresult, h⟩ := map_eq_ok_iff.mp h
  simp only [Bool.and_eq_true, decide_eq_true_eq, Option.any_eq_true] at h
  obtain ⟨hrunning, s', rfl, hrunning', hnine⟩ := h
  unfold recordsNine at hnine
  split at hnine
  · next energy recorded henergy hrecorded =>
    simp only [Bool.and_eq_true, decide_eq_true_eq] at hnine
    exact ⟨s₀, _, s, s', energy, recorded, (History.start hstart).run none 1 1 hrun, hrunning, hresult,
      hrunning', henergy, hrecorded, hnine.1, hnine.2⟩
  · cases hnine

theorem inDoubles_phase_recorded : ∃ s₀ log s s' energy xs r, inDoubles.History s₀ log s ∧
    (inDoubles.step s none 1).result = .ok (some s') ∧ ReadAt energy s' xs r ∧ r.energy = 9 ∧
      ∃ step, s'.values = Vec.sub xs (Vec.scale step r.slopes.direction) ∧
        .iteration (row s 0 xs r step) ∈ (inDoubles.step s none 1).events := by
  obtain ⟨s₀, log, s, s', _, recorded, history, hrunning, hresult, hrunning', _, hrecorded, hnine, _⟩ :=
    inDoubles_phase
  obtain ⟨energy, xs, r, _, read, hlast, _⟩ :=
    history.phase_recorded hrunning (by decide) hresult (.inl hrunning')
  have hr : r.energy = 9 := by
    rw [← hnine, Option.some.inj (hrecorded.symm.trans read.lastPhase)]
  rcases hlast with ⟨_, hsettled, _⟩ | ⟨_, step, hvalues, hrow⟩
  · rw [hrunning'] at hsettled
    cases hsettled
  · exact ⟨s₀, log, s, s', energy, xs, r, history, hresult, read, hr, step, hvalues, hrow⟩

/-- The energy that a phase records need not be that of the point recorded. -/
theorem inDoubles_energy_lags : ¬ ∀ (o : Optimizer Float) s₀ log s budget s' energy recorded,
    o.check = .ok () → o.lineSearch.check = .ok () → o.History s₀ log s → s.status = .running →
      1 ≤ budget → (o.step s none budget).result = .ok (some s') →
      (s'.status = .running ∨ s'.status = .settled) → s'.energy = some energy →
      s'.lastPhase = some recorded →
      (⟨energy, s'.weight⟩ : WeightedEnergy Float).value recorded.values = .ok recorded.energy := by
  intro h
  obtain ⟨s₀, log, s, s', energy, recorded, history, hrunning, hresult, hrunning', henergy, hrecorded,
    hnine, hzero⟩ := inDoubles_phase
  have hlags := h inDoubles s₀ log s 1 s' energy recorded (by decide +kernel) (by decide +kernel)
    history hrunning (by decide) hresult (.inl hrunning') henergy hrecorded
  rw [hzero, hnine] at hlags
  exact absurd hlags (by decide +kernel)

end Optimizer

end DiagramLayout

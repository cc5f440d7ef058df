import DiagramLayout.Proofs.Optimizer.Weight

/-!
# What convergence certifies

When phases end early, a round ends at the point that was read last, so what is recorded there belongs
to the variables. The end of a round is kept until the next round ends, and both are compared.
-/

namespace DiagramLayout

variable {α : Type} [Scalar α]

namespace Optimizer

variable {o : Optimizer α} {s s₀ s' t : State α} {log events : List (Event α)} {energy : Energy α}

/-! ## Ends of rounds -/

/-- The end of a round: the energy and the gradient recorded are those at the variables, and with the
direction recorded the decrement is small. -/
structure RoundEnd (o : Optimizer α) (energy : Energy α) (s : State α) (value : α) : Prop where
  weighted : energy.atWeight s.weight = .ok ⟨energy, s.weight⟩
  recorded : s.lastPhase = some ⟨s.values, value⟩
  value : (⟨energy, s.weight⟩ : WeightedEnergy α).value s.values = .ok value
  slopes : ∃ gradient direction, s.lastSlopes = some ⟨gradient, direction⟩ ∧
    (⟨energy, s.weight⟩ : WeightedEnergy α).gradient s.values = .ok gradient ∧
      Scalar.less (Vec.dot gradient direction) o.phaseStop = true

/-- A phase that ends early and has converged ends where it read last. -/
theorem Ended.isReading {e : WeightedEnergy α} {start : List α} {memory : Lbfgs.Memory α}
    {further : Nat} {d : Descent α} (h : Ended o s e start memory further events (.ok d))
    (hearly : o.breaksEarly = true)
    (hconverged : phaseConverged d.reading.decrement o.phaseStop = true) :
    ∃ m, IsReading e m d.values d.reading := by
  cases h with
  | settled _ _ hiterate => exact ⟨_, (iterate_settled hiterate).1⟩
  | spent _ hiterate =>
    obtain ⟨_, hgoing, _⟩ := iterate_moved hiterate
    rw [hearly, hconverged] at hgoing
    cases hgoing

theorem RoundEnd.of_reading {d : Descent α} {m : Lbfgs.Memory α}
    (hweighted : energy.atWeight s.weight = .ok ⟨energy, s.weight⟩)
    (reading : IsReading ⟨energy, s.weight⟩ m d.values d.reading)
    (hconverged : phaseConverged d.reading.decrement o.phaseStop = true) :
    RoundEnd o energy (o.afterPhase s d) d.reading.energy where
  weighted := hweighted
  recorded := rfl
  value := reading.energy
  slopes := by
    refine ⟨_, _, rfl, reading.gradient, ?_⟩
    rw [← reading.decrement]
    exact hconverged

/-! ## The round before -/

/-- A run passed through a state and went on from it in steps. -/
def PassedThrough (o : Optimizer α) (s₀ : State α) (log : List (Event α)) (s t : State α) : Prop :=
  ∃ before after, log = before ++ after ∧ o.History s₀ before t ∧ o.Steps t after s

theorem PassedThrough.self (h : o.History s₀ log s) : PassedThrough o s₀ log s s :=
  ⟨log, [], (List.append_nil log).symm, h, .none⟩

theorem PassedThrough.step {store : Option (Shapes.Store α)} {budget : Int}
    {next : Option (State α)} (h : PassedThrough o s₀ log s t)
    (hresult : (o.step s store budget).result = .ok next) :
    PassedThrough o s₀ (log ++ (o.step s store budget).events) (next.getD s) t := by
  obtain ⟨before, after, rfl, history, hsteps⟩ := h
  exact ⟨before, _, List.append_assoc _ _ _, history, hsteps.step store budget hresult⟩

/-- The settled end of the round before, through which the run passed. -/
structure RoundBefore (o : Optimizer α) (s₀ : State α) (log : List (Event α)) (s t : State α) :
    Prop where
  passed : PassedThrough o s₀ log s t
  settled : t.status = .settled
  round : t.round + 1 = s.round

/-- What a state keeps of the ends of its round and of the round before. -/
structure Certified (o : Optimizer α) (s₀ : State α) (log : List (Event α)) (s : State α) : Prop where
  ended : s.status = .settled ∨ s.status = .converged →
    ∃ energy value, s.energy = some energy ∧ RoundEnd o energy s value
  /-- While a round goes on, the end of the round before is kept. -/
  kept : s.status = .running ∨ s.status = .settled → s.round ≠ 0 →
    ∃ t, RoundBefore o s₀ log s t ∧ s.lastRound = t.lastPhase
  /-- At the end of the run the ends of its last two rounds have been compared. -/
  compared : s.status = .converged → s.lastRound = s.lastPhase ∧
    ∃ t before now, RoundBefore o s₀ log s t ∧ t.lastPhase = some before ∧
      s.lastPhase = some now ∧
      roundConverged before.values now.values before.energy now.energy o.roundStop = .ok true

/-- A run that has converged has compared the ends of two rounds. -/
theorem hasConverged_compared (h : o.hasConverged s = .ok true) :
    ∃ before now, s.lastRound = some before ∧ s.lastPhase = some now ∧
      roundConverged before.values now.values before.energy now.energy o.roundStop = .ok true := by
  unfold hasConverged at h
  split at h
  · split at h
    · next before now hbefore hnow => exact ⟨before, now, hbefore, hnow, h⟩
    · cases h
  · cases h

/-- Rounds with as many variables that are near each other are so in state or in energy. -/
theorem roundConverged_near {xs ys : List α} {fx fy tolerance : α} (hlength : ys.length = xs.length)
    (h : roundConverged xs ys fx fy tolerance = .ok true) :
    Scalar.less (Vec.norm (Vec.sub ys xs)) tolerance = true ∨
      Scalar.less (Scalar.abs (fy - fx)) tolerance = true := by
  simp only [roundConverged, Vec.pairwise?, hlength, ↓reduceIte, Except.ok.injEq,
    Bool.or_eq_true] at h
  exact h

/-- A step keeps the ends of the rounds. -/
theorem Stepped.certified {budget : Nat} (h : Stepped o s budget s' events)
    (hearly : o.breaksEarly = true) (history : o.History s₀ log s)
    (hpassed : ∀ {t}, PassedThrough o s₀ log s t → PassedThrough o s₀ (log ++ events) s' t)
    (hs : Certified o s₀ log s) : Certified o s₀ (log ++ events) s' := by
  have before {t : State α} (hround : s'.round = s.round) (hbefore : RoundBefore o s₀ log s t) :
      RoundBefore o s₀ (log ++ events) s' t :=
    ⟨hpassed hbefore.passed, hbefore.settled, hbefore.round.trans hround.symm⟩
  cases h with
  | idle =>
    rw [List.append_nil]
    exact hs
  | started =>
    constructor
    · intro h; simp at h
    · intro _ hround; exact absurd rfl hround
    · intro h; cases h
  | @phase e further d _ _ hrunning he _ hended =>
    constructor
    · intro hdone
      have hconverged := phaseConverged_of_done hdone
      obtain ⟨m, reading⟩ := hended.isReading hearly hconverged
      obtain ⟨energy, henergy, _⟩ := history.coherent.ready
      obtain ⟨hweighted, hobjective⟩ := history.coherent.objective_eq henergy (.inl hrunning)
      obtain rfl := Option.some.inj (he.symm.trans hobjective)
      exact ⟨energy, _, henergy, .of_reading hweighted reading hconverged⟩
    · intro _ hround
      obtain ⟨t, hbefore, hlast⟩ := hs.kept (.inl hrunning) hround
      exact ⟨t, before rfl hbefore, hlast⟩
    · intro hdone
      rcases o.afterPhase_status s d with hstatus | hstatus <;> rw [hstatus] at hdone <;> cases hdone
  | converged _ hsettled hconverged =>
    constructor
    · intro _
      obtain ⟨energy, value, henergy, hend⟩ := hs.ended (.inl hsettled)
      exact ⟨energy, value, henergy, hend.weighted, hend.recorded, hend.value, hend.slopes⟩
    · intro h; simp at h
    · intro _
      have hround := hasConverged_round hconverged
      obtain ⟨t, hbefore, hlast⟩ := hs.kept (.inr hsettled) (by omega)
      obtain ⟨_, now, hlastRound, hnow, hnear⟩ := hasConverged_compared hconverged
      exact ⟨rfl, t, _, now, before rfl hbefore, hlast.symm.trans hlastRound, hnow, hnear⟩
  | continued _ hsettled =>
    constructor
    · intro h; simp at h
    · intro _ _
      exact ⟨s, ⟨hpassed (.self history), hsettled, rfl⟩, rfl⟩
    · intro h; cases h
  | failed =>
    constructor
    · intro h; simp at h
    · intro h; simp at h
    · intro h; cases h

theorem History.certified (h : o.History s₀ log s) (hearly : o.breaksEarly = true) :
    Certified o s₀ log s := by
  have fresh {log : List (Event α)} {s : State α} (hfresh : s.status = .fresh) :
      Certified o s₀ log s := by
    constructor <;> intro h <;> simp [hfresh] at h
  refine h.grows ?_ ?_ ?_
  · intro _ _ _ _ hstart
    obtain ⟨_, _, _, _, _, _, rfl⟩ := start_eq_ok hstart
    exact fresh rfl
  · intro _ _ _ _ _ history hresult hs
    exact (step_stepped hresult).2.certified hearly history (fun h => h.step hresult) hs
  · intro _ _ _ _ _ hresample _
    obtain ⟨_, _, _, rfl⟩ := resample_eq_ok hresample
    exact fresh rfl

/-- **What convergence certifies.** When phases end early, at the end of every round the energy and the
gradient recorded are those at the variables, and the decrement is small. A run that has converged
has done two rounds or more, and the ends of the last two, through both of which it passed, are near
each other in state or in energy. -/
theorem History.convergence_certified (h : o.History s₀ log s) (hearly : o.breaksEarly = true)
    (hdone : s.status = .settled ∨ s.status = .converged) :
    ∃ energy value, s.energy = some energy ∧ RoundEnd o energy s value ∧
      (s.status = .converged → 2 ≤ s.round ∧ s.lastRound = s.lastPhase ∧
        ∃ t value', RoundBefore o s₀ log s t ∧ RoundEnd o energy t value' ∧
          (Scalar.less (Vec.norm (Vec.sub s.values t.values)) o.roundStop = true ∨
            Scalar.less (Scalar.abs (value - value')) o.roundStop = true)) := by
  obtain ⟨energy, value, henergy, hend⟩ := (h.certified hearly).ended hdone
  refine ⟨energy, value, henergy, hend, fun hconverged => ?_⟩
  obtain ⟨hlast, t, before, now, hbefore, hthen, hnow, hnear⟩ :=
    (h.certified hearly).compared hconverged
  obtain ⟨_, _, _, history, _⟩ := hbefore.passed
  obtain ⟨energy', value', henergy', hend'⟩ := (history.certified hearly).ended (.inl hbefore.settled)
  have hsame : energy' = energy := by
    rw [history.coherent.energy, ← h.coherent.energy, henergy] at henergy'
    exact (Option.some.inj henergy').symm
  subst hsame
  obtain rfl := Option.some.inj (hthen.symm.trans hend'.recorded)
  obtain rfl := Option.some.inj (hnow.symm.trans hend.recorded)
  have hlength : s.values.length = t.values.length :=
    h.coherent.count.trans history.coherent.count.symm
  exact ⟨h.coherent.converged hconverged, hlast, t, value', hbefore, hend',
    roundConverged_near hlength hnear⟩

theorem straightToThree_certified : ∃ s₀ log s energy value t value',
    exactly.History s₀ log s ∧ s.status = .converged ∧ s.values = [3] ∧
      RoundEnd exactly energy s value ∧ 2 ≤ s.round ∧ RoundBefore exactly s₀ log s t ∧
      RoundEnd exactly energy t value' := by
  obtain ⟨s₀, log, s, history, htest⟩ := straightToThree_history 5 10
    (fun _ s => decide (s.status = .converged) && s.values == [3]) (by decide +kernel)
  simp only [Bool.and_eq_true, decide_eq_true_eq, beq_iff_eq] at htest
  obtain ⟨hconverged, hvalues⟩ := htest
  obtain ⟨energy, value, _, hend, hpair⟩ :=
    history.convergence_certified rfl (.inr hconverged)
  obtain ⟨hround, _, t, value', hbefore, hend', _⟩ := hpair hconverged
  exact ⟨s₀, log, s, energy, value, t, value', history, hconverged, hvalues, hend, hround, hbefore,
    hend'⟩

end Optimizer

end DiagramLayout

import DiagramLayout.Proofs.Optimizer.Memory
import DiagramLayout.Proofs.Trace.Mirror

namespace DiagramLayout

variable {α : Type}

/-- Whether an iteration comes before another: by the round, then by the phase, then by the number. -/
def Iteration.Before (i j : Iteration α) : Prop :=
  i.round < j.round ∨ i.round = j.round ∧
    (i.phase < j.phase ∨ i.phase = j.phase ∧ i.number < j.number)

/-- Whether an iteration is of an earlier phase than the one that a state is in. -/
def Iteration.Past (i : Iteration α) (s : State α) : Prop :=
  i.round < s.round ∨ i.round = s.round ∧ i.phase < s.phase

/-- Whether an iteration is of the phase that a state is in. -/
structure Iteration.Of (i : Iteration α) (s : State α) : Prop where
  round : i.round = s.round
  phase : i.phase = s.phase

theorem Iteration.Past.before {i j : Iteration α} {s : State α} (h : i.Past s) (hj : j.Of s) :
    i.Before j := by
  obtain ⟨hround, hphase⟩ := hj
  unfold Iteration.Before
  unfold Iteration.Past at h
  omega

namespace Optimizer

open Event (iterations)

variable [Scalar α] {o : Optimizer α} {s s₀ s' : State α} {log events : List (Event α)}

/-! ## Phases -/

/-- The iterations of a walk are of one phase and numbered from zero. -/
theorem Walk.iterations_ordered {e : WeightedEnergy α} {start xs : List α} {memory m : Lbfgs.Memory α}
    {number : Nat} (walk : Walk o s e start memory number events xs m) :
    (iterations events).length = number ∧ (iterations events).Pairwise Iteration.Before ∧
      ∀ i ∈ iterations events, i.Of s ∧ i.number < number := by
  induction walk with
  | start => simp
  | @move number events xs next m r trials step _ _ ih =>
    obtain ⟨hlength, hpairwise, hnumbers⟩ := ih
    have hone : iterations (events ++ trials.map .trial ++ [.iteration (row s number xs r step)]) =
        iterations events ++ [row s number xs r step] := by simp
    rw [hone]
    refine ⟨by simp [hlength], List.pairwise_append.mpr ⟨hpairwise, by simp, ?_⟩, ?_⟩
    · intro i hi j hj
      obtain rfl := List.mem_singleton.mp hj
      obtain ⟨⟨hround, hphase⟩, hnumber⟩ := hnumbers i hi
      exact .inr ⟨hround, .inr ⟨hphase, hnumber⟩⟩
    · intro i hi
      rcases List.mem_append.mp hi with hi | hi
      · obtain ⟨hof, hnumber⟩ := hnumbers i hi
        exact ⟨hof, by omega⟩
      · obtain rfl := List.mem_singleton.mp hi
        exact ⟨⟨rfl, rfl⟩, by simp [row]⟩

theorem Ended.iterations_ordered {e : WeightedEnergy α} {start : List α} {memory : Lbfgs.Memory α}
    {further : Nat} {ending : Except Interruption (Descent α)}
    (h : Ended o s e start memory further events ending) :
    (iterations events).length ≤ further + 1 ∧ (iterations events).Pairwise Iteration.Before ∧
      ∀ i ∈ iterations events, i.Of s := by
  cases h with
  | settled walk hnumber _ =>
    obtain ⟨hlength, hpairwise, hnumbers⟩ := walk.iterations_ordered
    exact ⟨by omega, hpairwise, fun i hi => (hnumbers i hi).1⟩
  | spent walk hiterate =>
    obtain ⟨hlength, hpairwise, hnumbers⟩ := (walk.move hiterate).iterations_ordered
    exact ⟨by omega, hpairwise, fun i hi => (hnumbers i hi).1⟩
  | interrupted walk hnumber _ =>
    obtain ⟨hlength, hpairwise, hnumbers⟩ := walk.iterations_ordered
    simp only [Event.iterations_append, Event.iterations_trials, List.append_nil]
    exact ⟨by omega, hpairwise, fun i hi => (hnumbers i hi).1⟩

/-! ## Steps -/

/-- A step reports the iterations of one phase, no more than its budget, and only while a phase is
running. -/
theorem Stepped.iterations_ordered {budget : Nat} (h : Stepped o s budget s' events) :
    (iterations events).length ≤ budget ∧ (iterations events).Pairwise Iteration.Before ∧
      ∀ i ∈ iterations events, i.Of s ∧ s.status = .running := by
  have hnone (hevents : iterations events = []) : (iterations events).length ≤ budget ∧
      (iterations events).Pairwise Iteration.Before ∧
        ∀ i ∈ iterations events, i.Of s ∧ s.status = .running := by simp [hevents]
  cases h with
  | idle | converged | continued => exact hnone rfl
  | @started _ _ _ before _ _ henergy _ _ =>
    have hbefore : iterations before = [] := Event.iterations_eq_nil fun event hevent => by
      rw [compiled_warnings henergy event hevent]
      rfl
    exact hnone (by simp [hbefore])
  | phase _ hrunning _ hbudget hended =>
    obtain ⟨hlength, hpairwise, hof⟩ := hended.iterations_ordered
    rw [Event.iterations_append, Event.iterations_change, List.append_nil]
    exact ⟨by omega, hpairwise, fun i hi => ⟨hof i hi, hrunning⟩⟩
  | @failed cause before _ hcause =>
    have hlast : iterations [Event.warning (.noLayout cause s.round s.weight),
        .status s.status (.failed (some cause.message))] = [] := rfl
    rcases hcause with ⟨_, rfl⟩ | ⟨_, _, hrunning, _, hbudget, hended⟩
    · exact hnone rfl
    · obtain ⟨hlength, hpairwise, hof⟩ := hended.iterations_ordered
      rw [Event.iterations_append, hlast, List.append_nil]
      exact ⟨by omega, hpairwise, fun i hi => ⟨hof i hi, hrunning⟩⟩

/-- Iterations that came in order, and before the phase that the state is in. -/
structure Ordered (s : State α) (events : List (Event α)) : Prop where
  pairwise : (iterations events).Pairwise Iteration.Before
  past : s.status.isTerminal = false → ∀ i ∈ iterations events, i.Past s

/-- A step reports the iterations of its phase, and goes on to a later one. -/
theorem Stepped.ordered {budget : Nat} {earlier : List (Event α)} (h : Stepped o s budget s' events)
    (c : Coherent o s₀ log s) (ordered : Ordered s earlier) : Ordered s' (earlier ++ events) := by
  obtain ⟨hlength, hpairwise, hof⟩ := h.iterations_ordered
  have hgoing (hs' : s'.status.isTerminal = false) : s.status.isTerminal = false := by
    cases h with
    | idle => exact hs'
    | started _ hfresh => rw [hfresh]; rfl
    | phase _ hrunning => rw [hrunning]; rfl
    | converged _ hsettled | continued _ hsettled => rw [hsettled]; rfl
    | failed => cases hs'
  refine ⟨?_, ?_⟩
  · rw [Event.iterations_append]
    refine List.pairwise_append.mpr ⟨ordered.pairwise, hpairwise, ?_⟩
    intro i hi j hj
    obtain ⟨hj, hrunning⟩ := hof j hj
    exact (ordered.past (by rw [hrunning]; rfl) i hi).before hj
  · intro hs' i hi
    have hround := h.round_eq c
    have hphase := h.phase_eq c
    unfold Iteration.Past
    rw [Event.iterations_append] at hi
    rcases List.mem_append.mp hi with hi | hi
    · have hpast := ordered.past (hgoing hs') i hi
      unfold Iteration.Past at hpast
      split_ifs at hround hphase <;> omega
    · -- A phase that was run to its end is counted.
      obtain ⟨⟨hiround, hiphase⟩, hrunning⟩ := hof i hi
      have hbudget : 1 ≤ budget := (List.length_pos_of_mem hi).trans_le hlength
      simp [hrunning, hbudget, hs'] at hround hphase
      omega

/-- Steps in a row report their iterations in order. -/
theorem Steps.ordered (hsteps : o.Steps s events s') (h : o.History s₀ log s) : Ordered s' events := by
  induction hsteps with
  | none => exact ⟨by simp, by simp⟩
  | step store budget hsteps hresult ih =>
    exact (step_stepped hresult).2.ordered (h.append hsteps).coherent ih

/-! ## Weights and energies -/

/-- The energy of a run is that of its problem. -/
theorem History.compiled (h : o.History s₀ log s) : ∃ energy, s₀.energy = some energy ∧
    Energy.compile s₀.problem o.library o.scale Energy.defaultPenalty = .ok energy := by
  induction h with
  | start hstart =>
    obtain ⟨_, _, energy, _, hcompile, _, rfl⟩ := start_eq_ok hstart
    exact ⟨energy, rfl, hcompile⟩
  | step _ _ _ _ ih | run _ _ _ _ _ ih | resample _ _ _ ih => exact ih

/-- An iteration is reported with the weight of its round, and with the energy of its variables at this
weight. -/
theorem History.reported_iteration (h : o.History s₀ log s) {energy : Energy α}
    (henergy : s₀.energy = some energy) : ∀ i ∈ iterations log, ∃ round : Nat, i.round = round ∧
      i.weight = o.roundWeight round ∧
      (⟨energy, i.weight⟩ : WeightedEnergy α).value i.values = .ok i.energy := by
  refine h.grows (P := fun log _ => ∀ i ∈ iterations log, ∃ round : Nat, i.round = round ∧
    i.weight = o.roundWeight round ∧
      (⟨energy, i.weight⟩ : WeightedEnergy α).value i.values = .ok i.energy) ?_ ?_ ?_
  · simp
  · intro log s next store budget history _ ih
    rw [Event.iterations_append]
    refine List.forall_mem_append.mpr ⟨ih, fun i hi => ?_⟩
    have hready : s.energy = some energy := history.coherent.energy.trans henergy
    obtain ⟨hround, hweight, _, r, _, reading, hi, _⟩ :=
      history.coherent.step_reported hready store budget _ (Event.mem_iterations.mp hi)
    refine ⟨s.round, hround, hweight.trans history.weight_eq, ?_⟩
    rw [hweight, hi]
    exact reading.energy
  · intro log s s' initial _ hresample ih
    obtain ⟨_, _, hevents, _⟩ := resample_eq_ok hresample
    simpa [hevents] using ih

/-! ## Rows -/

open Trace

/-- Two rows in a row of a tracker: in one round they have one weight, and the later one has the change
of the energy. -/
def Compared (r r' : IterationRow α) : Prop :=
  if r.iteration.round = r'.iteration.round then
    r'.iteration.weight = r.iteration.weight ∧
      r'.change = some (r'.iteration.energy - r.iteration.energy)
  else r'.change = none

/-- **The rows of a run.** The rows of a tracker that has seen a run from its start are numbered from one.
Each was made while a phase was running, with the weight of its round and with the energy of the problem
at this weight and at its own variables. A row has the change of the energy since the row before exactly
if that is of the same round, and then of the same weight. Steps in a row, with no new start between
them, add rows of growing rounds, phases and numbers, and a single step no more of them than its
budget. -/
theorem History.iteration_rows (h : o.History s₀ log s) (run : String) (clock : Option α)
    (timed : List (α × Event α)) (htimed : timed.map Prod.snd = log) :
    (∃ energy, s₀.energy = some energy ∧
      Energy.compile s₀.problem o.library o.scale Energy.defaultPenalty = .ok energy ∧
      ∀ r ∈ (Tracker.seen run clock timed).rows, r.status = .running ∧
        ∃ round : Nat, r.iteration.round = round ∧ r.iteration.weight = o.roundWeight round ∧
          (⟨energy, r.iteration.weight⟩ : WeightedEnergy α).value r.iteration.values =
            .ok r.iteration.energy) ∧
    (Tracker.seen run clock timed).rows.map IterationRow.step =
      List.range' 1 (Tracker.seen run clock timed).rows.length ∧
    (∀ r ∈ (Tracker.seen run clock timed).rows.head?, r.change = none) ∧
    (Tracker.seen run clock timed).rows.IsChain Compared ∧
    (∀ (later : List (α × Event α)) (s' : State α), o.Steps s (later.map Prod.snd) s' →
      ∃ rows, (Tracker.seen run clock (timed ++ later)).rows =
          (Tracker.seen run clock timed).rows ++ rows ∧
        (rows.map IterationRow.iteration).Pairwise Iteration.Before) ∧
    ∀ (store : Option (Shapes.Store α)) (budget : Int) (next : Option (State α))
      (later : List (α × Event α)), (o.step s store budget).result = .ok next →
      later.map Prod.snd = (o.step s store budget).events →
      (Tracker.seen run clock (timed ++ later)).rows.length ≤
        (Tracker.seen run clock timed).rows.length + budget.toNat := by
  obtain ⟨energy, henergy, hcompile⟩ := h.compiled
  have kept := Tracker.kept_seen run clock timed
  have tracked := h.tracked run clock timed htimed
  have hreported : ∀ r ∈ (Tracker.seen run clock timed).rows, ∃ round : Nat,
      r.iteration.round = round ∧ r.iteration.weight = o.roundWeight round ∧
        (⟨energy, r.iteration.weight⟩ : WeightedEnergy α).value r.iteration.values =
          .ok r.iteration.energy := by
    intro r hr
    refine h.reported_iteration henergy r.iteration ?_
    rw [← htimed, ← kept.iterations]
    exact List.mem_map_of_mem hr
  refine ⟨⟨energy, henergy, hcompile, fun r hr => ⟨tracked.running r hr, hreported r hr⟩⟩,
    kept.numbered, kept.first, ?_, ?_, ?_⟩
  · refine kept.compared.imp_of_mem_imp fun r r' hr hr' hchange => ?_
    obtain ⟨round, hround, hweight, _⟩ := hreported r hr
    obtain ⟨round', hround', hweight', _⟩ := hreported r' hr'
    unfold Compared
    rw [hchange]
    by_cases hsame : r.iteration.round = r'.iteration.round
    · obtain rfl : round = round' := by omega
      simp only [IterationRow.changeTo, hsame, ↓reduceIte, and_true]
      exact hweight'.trans hweight.symm
    · simp [IterationRow.changeTo, hsame]
  · intro later s' hsteps
    obtain ⟨rows, hrows, hiterations⟩ := (Tracker.seen run clock timed).exists_rows_append later
    refine ⟨rows, by rw [Tracker.seen_append, hrows], ?_⟩
    rw [hiterations]
    exact (hsteps.ordered h).pairwise
  · intro store budget next later hresult hlater
    obtain ⟨rows, hrows, hiterations⟩ := (Tracker.seen run clock timed).exists_rows_append later
    have hlength := (step_stepped hresult).2.iterations_ordered.1
    rw [← hlater, ← hiterations, List.length_map] at hlength
    rw [Tracker.seen_append, hrows, List.length_append]
    omega

theorem towardsThree_iteration_rows : ∃ s₀ log s energy r r', shortSteps.History s₀ log s ∧
    (Tracker.seen "trace" none (log.map fun event => (0, event))).rows = [r, r'] ∧
    [r.step, r'.step] = [1, 2] ∧ r.change = none ∧
    r'.change = some (r'.iteration.energy - r.iteration.energy) ∧
    (⟨energy, r'.iteration.weight⟩ : WeightedEnergy ℚ).value r'.iteration.values =
      .ok r'.iteration.energy := by
  obtain ⟨s₀, log, s, history, htest⟩ := towardsThree_history
    (fun log _ => (Tracker.seen "trace" none (log.map fun event => ((0 : ℚ), event))).rows.map
      (·.iteration.round) == [0, 0]) (by decide +kernel)
  have htimed : (log.map fun event => ((0 : ℚ), event)).map Prod.snd = log := by simp
  obtain ⟨⟨energy, _, _, hread⟩, hstep, hfirst, hchain, _⟩ :=
    history.iteration_rows "trace" none _ htimed
  obtain ⟨r, rest, hrows, hr, hrest⟩ := List.map_eq_cons_iff.mp (eq_of_beq htest)
  obtain ⟨r', rfl, hr'⟩ := List.map_eq_singleton_iff.mp hrest
  rw [hrows] at hread hstep hfirst hchain
  obtain ⟨_, round, _, _, hvalue⟩ := hread r' (by simp)
  have hcompared : Compared r r' := by simpa using hchain
  rw [Compared, if_pos (hr.trans hr'.symm)] at hcompared
  exact ⟨s₀, log, s, energy, r, r', history, hrows, hstep, hfirst r rfl, hcompared.2, hvalue⟩

end Optimizer

end DiagramLayout

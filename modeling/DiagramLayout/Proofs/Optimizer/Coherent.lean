import DiagramLayout.Proofs.Energy.Recorded
import DiagramLayout.Proofs.Optimizer.History

/-!
# The parts of a state

The problem of a run never changes, the energy of a round is that of the problem at its weight, and
the memory of a round recalls points of this round only.
-/

namespace DiagramLayout

variable {α : Type}

/-! ## Rounds in a log -/

namespace Event

/-- Whether a round is opened: the energy takes a new weight, or the variables are new. -/
def opensRound : Event α → Bool
  | .status _ .running | .status _ .fresh => true
  | _ => false

/-- The events since a round was opened last. -/
def sinceRound (log : List (Event α)) : List (Event α) :=
  (log.reverse.takeWhile fun event => !event.opensRound).reverse

theorem sinceRound_append {log events : List (Event α)} (h : ∀ event ∈ events, ¬event.opensRound) :
    sinceRound (log ++ events) = sinceRound log ++ events := by
  have hpass : ∀ event ∈ events.reverse, (!event.opensRound) = true := by simpa using h
  rw [sinceRound, List.reverse_append, List.takeWhile_append_of_pos hpass]
  simp [sinceRound]

theorem sinceRound_opened (log events : List (Event α)) {event : Event α}
    (h : event.opensRound = true) : sinceRound (log ++ (events ++ [event])) = [] := by
  simp [sinceRound, h]

end Event

variable [Scalar α]

namespace Optimizer

open Event (visited sinceRound)

variable {o : Optimizer α} {s s₀ s' : State α} {log events : List (Event α)}

omit [Scalar α] in
theorem not_opensRound_trials (trials : List (LineSearch.Trial α)) :
    ∀ event ∈ trials.map Event.trial, ¬event.opensRound := by simp [Event.opensRound]

/-- The iterations of a phase open no round. -/
theorem Walk.not_opensRound {e : WeightedEnergy α} {start xs : List α} {memory m : Lbfgs.Memory α}
    {number : Nat} (walk : Walk o s e start memory number events xs m) :
    ∀ event ∈ events, ¬event.opensRound := by
  induction walk with
  | start => simp
  | move _ _ ih =>
    simp only [List.forall_mem_append]
    exact ⟨⟨ih, not_opensRound_trials _⟩, by simp [Event.opensRound]⟩

theorem Ended.not_opensRound {e : WeightedEnergy α} {start : List α} {memory : Lbfgs.Memory α}
    {further : Nat} {ending : Except Interruption (Descent α)}
    (h : Ended o s e start memory further events ending) : ∀ event ∈ events, ¬event.opensRound := by
  cases h with
  | settled walk _ _ => exact walk.not_opensRound
  | spent walk hiterate => exact (walk.move hiterate).not_opensRound
  | interrupted walk _ _ =>
    exact List.forall_mem_append.mpr ⟨walk.not_opensRound, not_opensRound_trials _⟩

/-! ## Phases -/

/-- The points and the memory at the end of a phase. -/
theorem Ended.recalls {e : WeightedEnergy α} {start : List α} {memory : Lbfgs.Memory α}
    {further : Nat} {d : Descent α} {path : List (List α)}
    (h : Ended o s e start memory further events (.ok d)) (hrecalls : e.Recalls memory path)
    (hstart : start.length = e.energy.count) :
    d.values.length = e.energy.count ∧ d.reading.memory.capacity = memory.capacity ∧
      (phaseConverged d.reading.decrement o.phaseStop = false →
        e.Recalls d.reading.memory (visited events ++ path)) := by
  cases h with
  | @settled _ _ xs m r walk _ hiterate =>
    obtain ⟨hmemory, hcapacity, hlength⟩ := walk.recalls hrecalls hstart
    obtain ⟨reading, _, hconverged⟩ := iterate_settled hiterate
    refine ⟨hlength, (reading.recalls hmemory).2.1.trans hcapacity, ?_⟩
    intro hgoing
    rw [hconverged] at hgoing
    cases hgoing
  | spent walk hiterate =>
    obtain ⟨hmemory, hcapacity, hlength⟩ := (walk.move hiterate).recalls hrecalls hstart
    exact ⟨hlength, hcapacity, fun _ => hmemory⟩

/-! ## Coherent states -/

/-- What the parts of a state have to do with each other, with the start of the run and with the
events since. -/
structure Coherent (o : Optimizer α) (s₀ : State α) (log : List (Event α)) (s : State α) : Prop where
  objectives : s.objectives = s₀.objectives
  constraints : s.constraints = s₀.constraints
  paths : s.paths = s₀.paths
  count : s.count = s₀.count
  energy : s.energy = s₀.energy
  ready : ∃ energy, s.energy = some energy ∧ energy.count = s.count
  capacity : s.memory.capacity = o.historySize.toNat
  fresh : s.status = .fresh → s.round = 0 ∧ s.phase = 0
  converged : s.status = .converged → 2 ≤ s.round
  /-- The energy of a round is the energy of the problem at the weight of the round. -/
  weighted : s.status = .running ∨ s.status = .settled →
    ∃ energy e, s.energy = some energy ∧ energy.atWeight s.weight = .ok e ∧ s.objective = some e
  emptied : s.status = .fresh ∨ s.status = .settled ∨ s.status = .converged →
    s.memory = { capacity := s.memory.capacity }
  /-- While a phase is running the memory recalls the newest points of the round. -/
  running : s.status = .running → ∀ e, s.objective = some e →
    e.Recalls s.memory (visited (sinceRound log))
  /-- After a failure it is the memory before the phase that failed. -/
  failed : ∀ message, s.status = .failed message →
    s.memory = { capacity := s.memory.capacity } ∨
      ∃ energy e path, s.energy = some energy ∧ energy.atWeight s.weight = .ok e ∧
        e.Recalls s.memory path ∧ path <:+ visited (sinceRound log)

namespace Coherent

/-- While a round is running or settled its energy is that of the problem at the weight. -/
theorem objective_eq (c : Coherent o s₀ log s) {energy : Energy α}
    (henergy : s.energy = some energy) (hstatus : s.status = .running ∨ s.status = .settled) :
    energy.atWeight s.weight = .ok ⟨energy, s.weight⟩ ∧ s.objective = some ⟨energy, s.weight⟩ := by
  obtain ⟨energy', e, henergy', hweight, hobjective⟩ := c.weighted hstatus
  obtain rfl : energy' = energy := Option.some.inj (henergy'.symm.trans henergy)
  obtain ⟨_, rfl⟩ := Energy.atWeight_eq_ok_iff.mp hweight
  exact ⟨hweight, hobjective⟩

/-- The energy of a round takes as many variables as there are. -/
theorem objective_count (c : Coherent o s₀ log s) (h : s.status = .running) {e : WeightedEnergy α}
    (he : s.objective = some e) : s.values.length = e.energy.count := by
  obtain ⟨energy, hready, hcount⟩ := c.ready
  obtain rfl := Option.some.inj (he.symm.trans (c.objective_eq hready (.inl h)).2)
  exact hcount.symm

end Coherent

theorem hasConverged_round (h : o.hasConverged s = .ok true) : 2 ≤ s.round := by
  unfold hasConverged at h
  split at h
  · next hround => exact hround
  · cases h

/-! ## Steps

What each kind of step keeps. Only a phase that goes on and a failure add to what a log says of the
memory, so in the other cases any log will do. -/

namespace Coherent

variable {energy : Energy α} {objective : WeightedEnergy α} {log' : List (Event α)}
  (c : Coherent o s₀ log s)
include c

/-- The first round is opened with an empty memory. -/
theorem opened (henergy : s.energy = some energy)
    (hweight : energy.atWeight o.initialWeight = .ok objective) :
    Coherent o s₀ log'
      { s with
        energy := some energy, weight := o.initialWeight, round := 0, phase := 0,
        objective := some objective, lastSlopes := some ⟨Vec.zeros s.count, Vec.zeros s.count⟩,
        memory := { capacity := o.historySize.toNat }, status := .running } :=
  { c with
    energy := henergy.symm.trans c.energy
    ready := by
      obtain ⟨energy', hready, hcount⟩ := c.ready
      obtain rfl : energy' = energy := Option.some.inj (hready.symm.trans henergy)
      exact ⟨_, rfl, hcount⟩
    capacity := rfl
    fresh := fun h => by cases h
    converged := fun h => by cases h
    weighted := fun _ => ⟨_, _, rfl, hweight, rfl⟩
    emptied := fun _ => rfl
    running := fun _ e _ => e.recalls_empty _ _
    failed := fun _ h => by cases h }

section
variable {e : WeightedEnergy α} {further : Nat} {d : Descent α}
  (hrunning : s.status = .running) (he : s.objective = some e)
  (hended : Ended o s e s.values s.memory further events (.ok d))
include hrunning he hended

theorem afterPhase_count : (o.afterPhase s d).count = s.count := by
  have hlength := c.objective_count hrunning he
  obtain ⟨hvalues, _, _⟩ := hended.recalls (c.running hrunning e he) hlength
  simp [afterPhase, State.count, hvalues, hlength]

/-- A phase that converges empties the memory. -/
theorem settled (hconverged : phaseConverged d.reading.decrement o.phaseStop = true) :
    Coherent o s₀ log' (o.afterPhase s d) := by
  obtain ⟨_, hcapacity, _⟩ :=
    hended.recalls (c.running hrunning e he) (c.objective_count hrunning he)
  have hcount := c.afterPhase_count hrunning he hended
  have hstatus : (o.afterPhase s d).status = .settled := by simp [afterPhase, hconverged]
  have hmemory : (o.afterPhase s d).memory = { capacity := s.memory.capacity } := by
    simp [afterPhase, hconverged, Lbfgs.Memory.reset, hcapacity]
  exact { c with
    count := hcount.trans c.count
    ready := hcount ▸ c.ready
    capacity := by rw [hmemory]; exact c.capacity
    fresh := fun h => by rw [hstatus] at h; cases h
    converged := fun h => by rw [hstatus] at h; cases h
    weighted := fun _ => c.weighted (.inl hrunning)
    emptied := fun _ => by rw [hmemory]
    running := fun h => by rw [hstatus] at h; cases h
    failed := fun _ h => by rw [hstatus] at h; cases h }

/-- A phase that goes on recalls the points that it visited before those of the phases before it. -/
theorem spent (hconverged : phaseConverged d.reading.decrement o.phaseStop = false) :
    Coherent o s₀ (log ++ (events ++ Event.change .running (o.afterPhase s d).status))
      (o.afterPhase s d) := by
  obtain ⟨_, hcapacity, hrecalls⟩ :=
    hended.recalls (c.running hrunning e he) (c.objective_count hrunning he)
  have hcount := c.afterPhase_count hrunning he hended
  have hstatus : (o.afterPhase s d).status = .running := by simp [afterPhase, hconverged]
  have hmemory : (o.afterPhase s d).memory = d.reading.memory := by simp [afterPhase, hconverged]
  have hsince : sinceRound (log ++ (events ++ Event.change .running (o.afterPhase s d).status)) =
      sinceRound log ++ events := by
    rw [hstatus, Event.change, if_pos rfl, List.append_nil]
    exact Event.sinceRound_append hended.not_opensRound
  exact { c with
    count := hcount.trans c.count
    ready := hcount ▸ c.ready
    capacity := by rw [hmemory, hcapacity]; exact c.capacity
    fresh := fun h => by rw [hstatus] at h; cases h
    converged := fun h => by rw [hstatus] at h; cases h
    weighted := fun _ => c.weighted (.inl hrunning)
    emptied := fun h => by simp [hstatus] at h
    running := fun _ e' he' => by
      obtain rfl : e = e' := Option.some.inj (he.symm.trans he')
      rw [hmemory, hsince, Event.visited_append]
      exact hrecalls hconverged
    failed := fun _ h => by rw [hstatus] at h; cases h }

end

/-- The run ends after a round that has settled. -/
theorem closed (hsettled : s.status = .settled) (hconverged : o.hasConverged s = .ok true) :
    Coherent o s₀ log' { s with status := .converged, lastRound := s.lastPhase } :=
  { c with
    fresh := fun h => by cases h
    converged := fun _ => hasConverged_round (s := s) hconverged
    weighted := fun h => by simp at h
    emptied := fun _ => c.emptied (.inr (.inl hsettled))
    running := fun h => by cases h
    failed := fun _ h => by cases h }

/-- The next round is opened with the empty memory that the last one left. -/
theorem reopened (hsettled : s.status = .settled) (henergy : s.energy = some energy)
    (hweight : energy.atWeight (o.growth * s.weight) = .ok objective) :
    Coherent o s₀ log'
      { s with
        status := .running, weight := o.growth * s.weight, round := s.round + 1, phase := 0,
        objective := some objective, lastRound := s.lastPhase } :=
  { c with
    fresh := fun h => by cases h
    converged := fun h => by cases h
    weighted := fun _ => ⟨_, _, henergy, hweight, rfl⟩
    emptied := fun h => by simp at h
    running := fun _ e _ => by
      have hempty := c.emptied (.inr (.inl hsettled))
      simp only
      rw [hempty]
      exact e.recalls_empty _ _
    failed := fun _ h => by cases h }

/-- A failure leaves the memory as it was before the phase that failed. -/
theorem interrupted {message : Option String} (hgoing : s.status.isTerminal = false)
    (hopens : ∀ event ∈ events, ¬event.opensRound) :
    Coherent o s₀ (log ++ events) { s with status := .failed message } :=
  { c with
    fresh := fun h => by cases h
    converged := fun h => by cases h
    weighted := fun h => by simp at h
    emptied := fun h => by simp at h
    running := fun h => by cases h
    failed := fun _ _ => by
      cases hstatus : s.status with
      | fresh => exact .inl (c.emptied (.inl hstatus))
      | settled => exact .inl (c.emptied (.inr (.inl hstatus)))
      | converged | failed _ => rw [hstatus] at hgoing; cases hgoing
      | running =>
        obtain ⟨energy, e, henergy, hweight, he⟩ := c.weighted (.inl hstatus)
        refine .inr ⟨energy, e, _, henergy, hweight, c.running hstatus e he, ?_⟩
        rw [Event.sinceRound_append hopens, Event.visited_append]
        exact List.suffix_append _ _ }

end Coherent

/-- A step keeps the parts of a state coherent. -/
theorem Stepped.coherent {budget : Nat} (h : Stepped o s budget s' events)
    (c : Coherent o s₀ log s) : Coherent o s₀ (log ++ events) s' := by
  cases h with
  | idle => simpa using c
  | started _ _ henergy hweight hmemory =>
    obtain ⟨_, rfl⟩ := Lbfgs.Memory.fresh_eq_ok_iff.mp hmemory
    obtain ⟨_, hready, _⟩ := c.ready
    obtain ⟨henergy, _⟩ | ⟨hnone, _⟩ := henergy
    · exact c.opened henergy hweight
    · cases hready.symm.trans hnone
  | @phase _ _ d _ _ hrunning he _ hended =>
    cases hconverged : phaseConverged d.reading.decrement o.phaseStop with
    | true => exact c.settled hrunning he hended hconverged
    | false => exact c.spent hrunning he hended hconverged
  | converged _ hsettled hconverged => exact c.closed hsettled hconverged
  | continued _ hsettled _ _ henergy hweight => exact c.reopened hsettled henergy hweight
  | @failed _ events hgoing hcause =>
    have hopens : ∀ event ∈ events, ¬event.opensRound := by
      rcases hcause with ⟨_, rfl⟩ | ⟨_, _, _, _, _, hended⟩
      · simp
      · exact hended.not_opensRound
    exact c.interrupted hgoing (List.forall_mem_append.mpr ⟨hopens, by simp [Event.opensRound]⟩)

theorem start_coherent {objectives constraints : List (Term α)} {initial : Tensor α}
    {paths : Option (List String)}
    (h : (o.start objectives constraints initial paths).result = .ok s₀) :
    Coherent o s₀ [] s₀ := by
  obtain ⟨values, names, energy, _, hcompile, _, rfl⟩ := start_eq_ok h
  obtain ⟨_, _, _, _, hcount, _, _⟩ := Energy.compile_eq_ok hcompile
  exact {
    objectives := rfl, constraints := rfl, paths := rfl, count := rfl, energy := rfl
    ready := ⟨energy, rfl, hcount⟩
    capacity := rfl
    fresh := fun _ => ⟨rfl, rfl⟩
    converged := fun h => by cases h
    weighted := fun h => by simp at h
    emptied := fun _ => rfl
    running := fun h => by cases h
    failed := fun _ h => by cases h }

theorem resample_coherent {initial : Tensor α} (h : (o.resample s initial).result = .ok s')
    (c : Coherent o s₀ log s) : Coherent o s₀ (log ++ (o.resample s initial).events) s' := by
  obtain ⟨values, hlength, _, rfl⟩ := resample_eq_ok h
  exact { c with
    count := hlength.trans c.count
    ready := by
      obtain ⟨energy, henergy, hcount⟩ := c.ready
      exact ⟨energy, henergy, hcount.trans hlength.symm⟩
    fresh := fun _ => ⟨rfl, rfl⟩
    converged := fun h => by cases h
    weighted := fun h => by simp at h
    emptied := fun _ => rfl
    running := fun h => by cases h
    failed := fun _ h => by cases h }

theorem History.coherent (h : History o s₀ log s) : Coherent o s₀ log s :=
  h.steps start_coherent (fun _ hstep c => hstep.coherent c) fun _ hresample c =>
    resample_coherent hresample c

end Optimizer

end DiagramLayout

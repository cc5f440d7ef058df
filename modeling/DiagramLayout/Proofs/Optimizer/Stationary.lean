import DiagramLayout.Proofs.Optimizer.Session
import DiagramLayout.Proofs.Optimizer.WrittenBack
import DiagramLayout.Proofs.Scalar.Rounded

/-!
# Stationary layouts

A run that starts where the energy is stationary at the weights of the first three rounds stays there.
Each round opens and settles at once, and when the third one has settled, the run has converged.
-/

namespace DiagramLayout

open Shapes (Store)

variable {α : Type} [Scalar α]

/-- An energy is stationary at variables where it is finite and every entry of its gradient is zero. -/
def WeightedEnergy.IsStationary (e : WeightedEnergy α) (xs : List α) : Prop :=
  (∃ value, e.value xs = .ok value ∧ Scalar.isFinite value = true) ∧
    ∃ gradient, e.gradient xs = .ok gradient ∧ ∀ a ∈ gradient, Scalar.IsZero a

instance (e : WeightedEnergy α) (xs : List α) : Decidable (e.IsStationary xs) :=
  decidable_of_iff ((e.value xs).toOption.any Scalar.isFinite = true ∧
      (e.gradient xs).toOption.any (·.all (Scalar.same · 0.0)) = true) <| by
    simp [WeightedEnergy.IsStationary, Option.any_eq_true, toOption_eq_some_iff, Scalar.IsZero]

namespace Optimizer

variable {o : Optimizer α} {s s₀ : State α} {store : Option (Store α)} {energy : Energy α}

/-! ## Settings -/

/-- What the settings keep to in any arithmetic. -/
theorem kept_of_check (h : o.check = .ok ()) :
    Scalar.less 0.0 o.initialWeight = true ∧ Scalar.less 1.0 o.growth = true ∧
      Scalar.less 0.0 o.phaseStop = true ∧ Scalar.less 0.0 o.roundStop = true ∧ 0 ≤ o.historySize := by
  obtain ⟨_, _, h⟩ := bind_eq_ok_iff.mp h
  obtain ⟨_, hweight, h⟩ := bind_eq_ok_iff.mp h
  obtain ⟨_, hgrowth, h⟩ := bind_eq_ok_iff.mp h
  obtain ⟨_, hphase, h⟩ := bind_eq_ok_iff.mp h
  obtain ⟨_, hround, h⟩ := bind_eq_ok_iff.mp h
  obtain ⟨_, hsize, _⟩ := bind_eq_ok_iff.mp h
  exact ⟨require_eq_ok_iff.mp hweight, require_eq_ok_iff.mp hgrowth, require_eq_ok_iff.mp hphase,
    require_eq_ok_iff.mp hround, of_decide_eq_true (require_eq_ok_iff.mp hsize)⟩

/-- The weights are positive and do not fall, even if they are rounded. -/
theorem roundWeight_grows (laws : Scalar.IsRounded α) (hcheck : o.check = .ok ()) (round : Nat) :
    Scalar.less 0.0 (o.roundWeight round) = true ∧
      Scalar.atMost (o.roundWeight round) (o.roundWeight (round + 1)) = true := by
  obtain ⟨hweight, hgrowth, _⟩ := kept_of_check hcheck
  induction round with
  | zero => exact ⟨hweight, laws.grows hweight hgrowth⟩
  | succ round ih =>
    have hpositive := laws.positive ih.1 ih.2
    exact ⟨hpositive, laws.grows hpositive hgrowth⟩

/-! ## Stores -/

/-- A store takes the variables of a state when they are written so many times in a row, as the phases of
a run do. Where there is no store, or no paths to write to, this always holds. -/
def Takes (s : State α) : Nat → Option (Store α) → Prop
  | 0, _ => True
  | times + 1, store => (project s store).1 = .ok () ∧ Takes s times (project s store).2

omit [Scalar α] in
/-- Without a store, and without paths, there is nothing to write. -/
theorem takes_of_unwritten (h : store = none ∨ s.paths = []) (times : Nat) : Takes s times store := by
  have hproject : project s store = (.ok (), store) := by
    obtain rfl | hpaths := h
    · rfl
    · cases store with
      | none => rfl
      | some shapes => simp [project, hpaths]
  induction times with
  | zero => trivial
  | succ times ih => exact ⟨by rw [hproject], by rw [hproject]; exact ih⟩

omit [Scalar α] in
/-- A store takes them if no declared path is that of a character. -/
theorem Backed.takes {shapes : List (String × List (String × Value α))} {initial : Store α}
    (declared : Store.Declared shapes initial) (hwritable : initial.Writable)
    (h : Backed initial s store) (times : Nat) : Takes s times store := by
  induction times generalizing store with
  | zero => trivial
  | succ times ih =>
    obtain ⟨held, _, halike, hproject⟩ := h.project_eq declared
    refine ⟨h.project_writable declared hwritable, ih ⟨h.paths, h.count, ?_⟩⟩
    rw [hproject]
    exact ⟨_, rfl, declared.alike_insert halike _⟩

omit [Scalar α] in
theorem project_congr (hvalues : s.values = s₀.values) (hpaths : s.paths = s₀.paths)
    (store : Option (Store α)) : project s store = project s₀ store := by
  simp only [project, State.projection, hvalues, hpaths]

/-! ## Iterations -/

theorem IsReading.read_eq {e : WeightedEnergy α} {m : Lbfgs.Memory α} {xs : List α} {r : Reading α}
    (reading : IsReading e m xs r) : read e m xs = .ok r := by
  obtain ⟨hfinite, henergy, hgradient, henergy', hgradient', hdirection, hdecrement⟩ := reading
  simp only [read, Preconditioner.ofMemory, hfinite, henergy, hgradient, Interruption.lift, ok_bind,
    henergy', hgradient', hdirection, ← hdecrement]
  rfl

/-- At a stationary point an iteration without differences in memory settles. -/
theorem iterate_stationary (laws : Scalar.IsRounded α) (hearly : o.breaksEarly = true)
    (hstop : Scalar.less 0.0 o.phaseStop = true) {e : WeightedEnergy α} {xs : List α}
    {m : Lbfgs.Memory α} (hfinite : Vec.Finite xs) (hstill : e.IsStationary xs) (hsteps : m.steps = 0) :
    ∃ r, o.iterate e xs m = .settled r ∧ phaseConverged r.decrement o.phaseStop = true := by
  obtain ⟨⟨value, hvalue, hvalue'⟩, gradient, hgradient, hzero⟩ := hstill
  have hlength : xs.length = gradient.length := by
    rw [WeightedEnergy.length_of_value hvalue, WeightedEnergy.length_gradient hgradient]
  -- The first direction of a phase is the gradient.
  have hdirection : m.precondition xs gradient =
      .ok (gradient, ⟨m.capacity, some xs, some gradient, [], 1⟩) := by
    simp only [Lbfgs.Memory.precondition, require, hlength, BEq.rfl, ↓reduceIte, hsteps, ok_bind,
      Lbfgs.Memory.restart_eq]
    rfl
  obtain ⟨r, reading, hdecrement⟩ :
      ∃ r, IsReading e m xs r ∧ r.decrement = Vec.dot gradient gradient := by
    refine ⟨⟨value, ⟨gradient, gradient⟩, _, ⟨m.capacity, some xs, some gradient, [], 1⟩⟩, ?_, rfl⟩
    exact
      { finite := ensureFinite_eq_ok_iff.mpr hfinite
        energy := hvalue
        gradient := hgradient
        energy_finite := ensureFinite_eq_ok_iff.mpr (by simpa)
        gradient_finite := ensureFinite_eq_ok_iff.mpr fun a ha => laws.finite (hzero a ha)
        direction := hdirection
        decrement := rfl }
  have hconverged : phaseConverged r.decrement o.phaseStop = true := by
    rw [hdecrement]
    exact laws.less (laws.isZero_dot hzero hzero) hstop
  refine ⟨r, ?_, hconverged⟩
  simp only [iterate, reading.read_eq, hearly, hconverged, Bool.and_self, ↓reduceIte]

theorem descend_settled {e : WeightedEnergy α} {xs : List α} {m : Lbfgs.Memory α} {r : Reading α}
    (h : o.iterate e xs m = .settled r) (s : State α) (further number : Nat) :
    o.descend s e further number xs m = ([], .ok ⟨xs, r⟩) := by
  unfold descend
  simp only [h]

/-! ## Stages -/

/-- Where a run stands: its status and the number of its round. -/
structure Stage where
  status : Status
  round : Nat

/-- What follows what in a run that stays where it is. -/
inductive Stage.Next : Stage → Stage → Prop where
  | start : Next ⟨.fresh, 0⟩ ⟨.running, 0⟩
  | settle {round : Nat} : round < 3 → Next ⟨.running, round⟩ ⟨.settled, round⟩
  | reopen {round : Nat} : round < 2 → Next ⟨.settled, round⟩ ⟨.running, round + 1⟩
  | finish {round : Nat} : 1 < round → Next ⟨.settled, round⟩ ⟨.converged, round⟩

/-- The stages of such a run. -/
def Stage.all : List Stage :=
  [⟨.fresh, 0⟩, ⟨.running, 0⟩, ⟨.settled, 0⟩, ⟨.running, 1⟩, ⟨.settled, 1⟩, ⟨.running, 2⟩,
    ⟨.settled, 2⟩, ⟨.converged, 2⟩]

theorem Stage.all_isChain : List.IsChain Stage.Next Stage.all := by
  simp only [all, List.isChain_cons_cons]
  exact ⟨.start, .settle (by omega), .reopen (by omega), .settle (by omega), .reopen (by omega),
    .settle (by omega), .finish (by omega), .singleton _⟩

/-- A state at a stage of a run that stays where it started. -/
structure StaysAt (o : Optimizer α) (s₀ : State α) (compiled : Energy α) (stage : Stage) (s : State α) :
    Prop where
  values : s.values = s₀.values
  paths : s.paths = s₀.paths
  energy : s.energy = some compiled
  status : s.status = stage.status
  round : s.round = stage.round
  weight : s.weight = o.roundWeight stage.round
  forgotten : s.memory.steps = 0
  objective : s.status = .running → s.objective = some ⟨compiled, s.weight⟩
  lastPhase : s.status = .settled → ∃ value, s.lastPhase = some ⟨s₀.values, value⟩
  lastRound : 0 < s.round → ∃ value, s.lastRound = some ⟨s₀.values, value⟩

/-- A layout with finite variables, at which the energies of the first three rounds are stationary. -/
structure Stationary (o : Optimizer α) (s₀ : State α) (compiled : Energy α) : Prop where
  finite : Vec.Finite s₀.values
  weight (round : Nat) : round < 3 → Scalar.isFinite (o.roundWeight round) = true
  stationary (round : Nat) : round < 3 →
    (⟨compiled, o.roundWeight round⟩ : WeightedEnergy α).IsStationary s₀.values

/-- Rounds that end where they started have converged. -/
theorem roundConverged_same (laws : Scalar.IsRounded α) {xs : List α} (hfinite : Vec.Finite xs)
    {tolerance : α} (htolerance : Scalar.less 0.0 tolerance = true) (fx fy : α) :
    roundConverged xs xs fx fy tolerance = .ok true := by
  have hdifference : Vec.pairwise? (· - ·) xs xs = some (Vec.sub xs xs) := if_pos rfl
  have hnear : Scalar.less (Vec.norm (Vec.sub xs xs)) tolerance = true :=
    laws.less (laws.isZero_norm (laws.isZero_sub_self hfinite)) htolerance
  simp only [roundConverged, hdifference, hnear, Bool.true_or]

/-- The store after a step at a stage. Only phases write. -/
def Stage.written (stage : Stage) (s₀ : State α) (store : Option (Store α)) : Option (Store α) :=
  if stage.status = .running then (project s₀ store).2 else store

/-! ## Steps -/

section
variable {s : State α} {round : Nat} (hcheck : o.check = .ok ()) (still : Stationary o s₀ energy)

include still in
theorem StaysAt.finite {stage : Stage} (h : StaysAt o s₀ energy stage s) :
    ensureFinite .values s.values = .ok () :=
  ensureFinite_eq_ok_iff.mpr (h.values ▸ still.finite)

include hcheck still in
theorem StaysAt.startRound (h : StaysAt o s₀ energy ⟨.fresh, 0⟩ s) :
    ∃ s', o.startRound s = (.ok (some s'), []) ∧ StaysAt o s₀ energy ⟨.running, 0⟩ s' := by
  obtain ⟨_, _, _, _, hsize⟩ := kept_of_check hcheck
  have hobjective : energy.atWeight o.initialWeight = .ok ⟨energy, o.initialWeight⟩ :=
    Energy.atWeight_eq_ok_iff.mpr ⟨still.weight 0 (by omega), rfl⟩
  have hmemory : Lbfgs.Memory.fresh o.historySize =
      .ok ({ capacity := o.historySize.toNat } : Lbfgs.Memory α) :=
    Lbfgs.Memory.fresh_eq_ok_iff.mpr ⟨hsize, rfl⟩
  refine ⟨{ s with
    energy := some energy, weight := o.initialWeight, round := 0, phase := 0,
    objective := some ⟨energy, o.initialWeight⟩,
    lastSlopes := some ⟨Vec.zeros s.count, Vec.zeros s.count⟩,
    memory := { capacity := o.historySize.toNat }, status := .running }, ?_, ?_⟩
  · simp only [Optimizer.startRound, h.energy, ok_bind, hobjective, hmemory]
    rfl
  · constructor <;> simp [h.values, h.paths, roundWeight]

include hcheck still in
theorem StaysAt.runPhase (laws : Scalar.IsRounded α) (hearly : o.breaksEarly = true)
    (hround : round < 3) (h : StaysAt o s₀ energy ⟨.running, round⟩ s)
    (hwritten : (project s₀ store).1 = .ok ()) (further : Nat) :
    ∃ s', o.runPhase s store (further + 1) = (.ok (some s'), [], (project s₀ store).2) ∧
      StaysAt o s₀ energy ⟨.settled, round⟩ s' := by
  obtain ⟨_, _, hstop, _⟩ := kept_of_check hcheck
  have hstationary : (⟨energy, s.weight⟩ : WeightedEnergy α).IsStationary s.values := by
    rw [h.values, h.weight]
    exact still.stationary round hround
  obtain ⟨r, hsettled, hconverged⟩ := iterate_stationary laws hearly hstop
    (h.values ▸ still.finite) hstationary h.forgotten
  have hproject : project (o.afterPhase s ⟨s.values, r⟩) store = project s₀ store :=
    project_congr h.values h.paths store
  refine ⟨o.afterPhase s ⟨s.values, r⟩, ?_, ?_⟩
  · simp only [Optimizer.runPhase, h.objective h.status, descend_settled hsettled, hproject, hwritten]
    rfl
  · exact
      { values := h.values
        paths := h.paths
        energy := h.energy
        status := by simp [afterPhase, hconverged]
        round := h.round
        weight := h.weight
        forgotten := by simp [afterPhase, hconverged, Lbfgs.Memory.reset]
        objective := by simp [afterPhase, hconverged]
        lastPhase := fun _ => ⟨r.energy, by simp [afterPhase, h.values]⟩
        lastRound := h.lastRound }

include still in
theorem StaysAt.hasConverged (laws : Scalar.IsRounded α) (hcheck : o.check = .ok ())
    (h : StaysAt o s₀ energy ⟨.settled, round⟩ s) : o.hasConverged s = .ok (decide (1 < round)) := by
  obtain ⟨_, _, _, hstop, _⟩ := kept_of_check hcheck
  obtain ⟨value, hphase⟩ := h.lastPhase h.status
  by_cases hround : 1 < round
  · obtain ⟨value', hbefore⟩ := h.lastRound (by rw [h.round]; exact Nat.zero_lt_of_lt hround)
    simp only [Optimizer.hasConverged, h.round, hround, hphase, hbefore, ↓reduceIte, decide_true]
    exact roundConverged_same laws still.finite hstop _ _
  · simp [Optimizer.hasConverged, h.round, hround]

include hcheck still in
theorem StaysAt.closeRound_reopen (laws : Scalar.IsRounded α) (hround : round < 2)
    (h : StaysAt o s₀ energy ⟨.settled, round⟩ s) :
    ∃ s', o.closeRound s = .ok (some s') ∧ StaysAt o s₀ energy ⟨.running, round + 1⟩ s' := by
  have hconverged : o.hasConverged s = .ok false := by
    rw [h.hasConverged still laws hcheck]
    simp only [show ¬1 < round by omega, decide_false]
  have hweight : o.growth * s.weight = o.roundWeight (round + 1) := by rw [h.weight, roundWeight]
  have hgrows : require (Scalar.atMost s.weight (o.growth * s.weight)) .weightGrows = .ok () := by
    rw [hweight, h.weight]
    exact require_eq_ok_iff.mpr (roundWeight_grows laws hcheck round).2
  have hobjective : energy.atWeight (o.growth * s.weight) = .ok ⟨energy, o.growth * s.weight⟩ := by
    rw [hweight]
    exact Energy.atWeight_eq_ok_iff.mpr ⟨still.weight (round + 1) (by omega), rfl⟩
  refine ⟨{ s with
    status := .running, weight := o.growth * s.weight, round := s.round + 1, phase := 0,
    objective := some ⟨energy, o.growth * s.weight⟩, lastRound := s.lastPhase }, ?_, ?_⟩
  · simp only [closeRound, h.energy, hconverged, ok_bind, hgrows, hobjective]
    rfl
  · exact
      { values := h.values
        paths := h.paths
        energy := h.energy
        status := rfl
        round := congrArg (· + 1) h.round
        weight := hweight
        forgotten := h.forgotten
        objective := fun _ => rfl
        lastPhase := fun hstatus => by cases hstatus
        lastRound := fun _ => h.lastPhase h.status }

include hcheck still in
theorem StaysAt.closeRound_finish (laws : Scalar.IsRounded α) (hround : 1 < round)
    (h : StaysAt o s₀ energy ⟨.settled, round⟩ s) :
    ∃ s', o.closeRound s = .ok (some s') ∧ StaysAt o s₀ energy ⟨.converged, round⟩ s' := by
  have hconverged : o.hasConverged s = .ok true := by
    rw [h.hasConverged still laws hcheck]
    simp only [hround, decide_true]
  refine ⟨{ s with status := .converged, lastRound := s.lastPhase }, ?_, ?_⟩
  · simp only [closeRound, h.energy, hconverged, ok_bind]
    rfl
  · exact
      { values := h.values
        paths := h.paths
        energy := h.energy
        status := rfl
        round := h.round
        weight := h.weight
        forgotten := h.forgotten
        objective := fun hstatus => by cases hstatus
        lastPhase := fun hstatus => by cases hstatus
        lastRound := fun _ => h.lastPhase h.status }

include hcheck still in
/-- A step leads from a stage to the next one, and reports nothing but the change of status. -/
theorem StaysAt.step (laws : Scalar.IsRounded α) (hearly : o.breaksEarly = true) {stage next : Stage}
    (hnext : Stage.Next stage next) (h : StaysAt o s₀ energy stage s)
    (hwritten : stage.status = .running → (project s₀ store).1 = .ok ()) {budget : Int}
    (hbudget : 1 ≤ budget) :
    ∃ s', o.step s store budget =
        { result := .ok (some s'), events := [.status stage.status next.status], store := stage.written s₀ store } ∧
      StaysAt o s₀ energy next s' := by
  obtain ⟨further, hfurther⟩ : ∃ further : Nat, budget.toNat = further + 1 :=
    ⟨budget.toNat - 1, by omega⟩
  -- Before the step is reported nothing has happened that is.
  have hadvance : ∃ s', o.advance s store budget.toNat = (.ok (some s'), [], stage.written s₀ store) ∧
      StaysAt o s₀ energy next s' := by
    rw [hfurther]
    cases hnext with
    | start =>
      obtain ⟨s', hstart, hstays⟩ := h.startRound hcheck still
      exact ⟨s', by simp only [advance, h.finite still, h.status, hstart]; rfl, hstays⟩
    | settle hround =>
      obtain ⟨s', hphase, hstays⟩ := h.runPhase hcheck still laws hearly hround (hwritten rfl) further
      exact ⟨s', by simp only [advance, h.finite still, h.status, hphase]; rfl, hstays⟩
    | reopen hround =>
      obtain ⟨s', hclose, hstays⟩ := h.closeRound_reopen hcheck still laws hround
      exact ⟨s', by simp only [advance, h.finite still, h.status, hclose]; rfl, hstays⟩
    | finish hround =>
      obtain ⟨s', hclose, hstays⟩ := h.closeRound_finish hcheck still laws hround
      exact ⟨s', by simp only [advance, h.finite still, h.status, hclose]; rfl, hstays⟩
  obtain ⟨s', hadvance, hstays⟩ := hadvance
  have hgoing : s.status.isTerminal = false := by
    rw [h.status]
    cases hnext <;> rfl
  have hchange : (Event.change stage.status next.status : List (Event α)) = [.status stage.status next.status] := by
    cases hnext <;> rfl
  refine ⟨s', ?_, hstays⟩
  rw [step_eq_advance (by omega) hgoing, hadvance]
  simp only [h.status, hstays.status, hchange, List.nil_append]

end

/-! ## Runs -/

/-- The changes of status from stage to stage. -/
def Stage.changes (stages : List Stage) : List (Event α) :=
  (stages.zip stages.tail).map fun pair => .status pair.1.status pair.2.status

/-- A run goes through the stages that are left, one with each step, up to the last. -/
theorem StaysAt.run (laws : Scalar.IsRounded α) (hcheck : o.check = .ok ()) (hearly : o.breaksEarly = true)
    (still : Stationary o s₀ energy) {budget : Int} (hbudget : 1 ≤ budget) {stage : Stage}
    {rest : List Stage} (hchain : List.IsChain Stage.Next (stage :: rest))
    (hlast : ((stage :: rest).getLast (by simp)).status.isTerminal = true)
    (htakes : Takes s₀ ((stage :: rest).countP (·.status = .running)) store)
    (h : StaysAt o s₀ energy stage s) (calls : Nat) :
    ∃ s' reached, (o.runFor budget calls s store).result = .ok s' ∧
      (stage :: rest)[min calls rest.length]? = some reached ∧ StaysAt o s₀ energy reached s' ∧
      (o.runFor budget calls s store).events = (Stage.changes (stage :: rest)).take calls ∧
      (o.runSteps budget calls s store).length = min calls rest.length := by
  induction rest generalizing stage s store calls with
  | nil =>
    have hend : s.status.isTerminal = true := h.status ▸ hlast
    refine ⟨s, stage, ?_⟩
    cases calls <;> simp [runFor, runSteps, hend, h, Stage.changes]
  | cons next rest ih =>
    obtain ⟨hnext, hchain⟩ := List.isChain_cons_cons.mp hchain
    have hgoing : s.status.isTerminal = false := by
      rw [h.status]
      cases hnext <;> rfl
    have hwritten : (stage.status = .running → (project s₀ store).1 = .ok ()) ∧
        Takes s₀ ((next :: rest).countP (·.status = .running)) (stage.written s₀ store) := by
      by_cases hrunning : stage.status = .running
      · simp only [List.countP_cons (a := stage), hrunning, decide_true, ↓reduceIte, Takes] at htakes
        simpa [Stage.written, hrunning] using htakes
      · simpa [Stage.written, hrunning] using htakes
    cases calls with
    | zero => exact ⟨s, stage, rfl, by simp, h, by simp [runFor], by simp [runSteps]⟩
    | succ calls =>
      obtain ⟨s₁, hstep, hstays⟩ := h.step hcheck still laws hearly hnext hwritten.1 hbudget
      obtain ⟨s', reached, hresult, hreached, hstays', hevents, hlength⟩ :=
        ih hchain (by simpa using hlast) hwritten.2 hstays calls
      refine ⟨s', reached, ?_, ?_, hstays', ?_, ?_⟩
      · simpa [runFor, hgoing, hstep] using hresult
      · simpa using hreached
      · simp [runFor, hgoing, hstep, hevents, Stage.changes]
      · simp [runSteps, hgoing, hstep, hlength]

/-- The start of a run is at the first stage. -/
theorem start_stays {objectives constraints : List (Term α)} {initial : Tensor α}
    {paths : Option (List String)}
    (hstart : (o.start objectives constraints initial paths).result = .ok s₀)
    (henergy : s₀.energy = some energy) : StaysAt o s₀ energy ⟨.fresh, 0⟩ s₀ := by
  obtain ⟨_, _, _, _, _, _, rfl⟩ := start_eq_ok hstart
  constructor <;> simp_all [roundWeight]

/-- What a run that never moves comes to in so many calls, and what it reports on the way. -/
structure Unmoved (o : Optimizer α) (s₀ : State α) (store : Option (Store α)) (budget calls : Int)
    (s : State α) : Prop where
  result : (o.run s₀ store budget calls).result = .ok s
  values : s.values = s₀.values
  terminal : s.status.isTerminal = true ↔ 7 ≤ calls
  steps : (o.runSteps budget calls.toNat s₀ store).length = min calls 7
  changes : ∀ event ∈ (o.run s₀ store budget calls).events, ∃ old new, event = .status old new
  ends : 7 ≤ calls → s.status = .converged ∧ s.round = 2 ∧
    s.weight = o.growth * (o.growth * o.initialWeight)

theorem StaysAt.unmoved (laws : Scalar.IsRounded α) (hcheck : o.check = .ok ())
    (hearly : o.breaksEarly = true) (still : Stationary o s₀ energy)
    (h : StaysAt o s₀ energy ⟨.fresh, 0⟩ s₀) (htakes : Takes s₀ 3 store) {budget : Int}
    (hbudget : 1 ≤ budget) {calls : Int} (hcalls : 0 ≤ calls) :
    ∃ s, Unmoved o s₀ store budget calls s := by
  obtain ⟨s, reached, hresult, hreached, hstays, hevents, hlength⟩ :=
    h.run laws hcheck hearly still hbudget Stage.all_isChain rfl htakes calls.toNat
  have hrun : o.run s₀ store budget calls = o.runFor budget calls.toNat s₀ store :=
    if_neg hcalls.not_gt
  have hends : ∀ i ≤ 7, (Stage.all[i]?).any (fun stage => stage.status.isTerminal) = decide (i = 7) := by
    decide
  have hterminal : reached.status.isTerminal = true ↔ 7 ≤ calls := by
    have h := hends (min calls.toNat 7) (by omega)
    rw [show Stage.all[min calls.toNat 7]? = some reached from hreached, Option.any_some] at h
    rw [h, decide_eq_true_iff]
    omega
  rw [← hrun] at hresult hevents
  refine ⟨s, hresult, hstays.values, hstays.status ▸ hterminal, ?_, ?_, fun hend => ?_⟩
  · have hcount : (o.runSteps budget calls.toNat s₀ store).length = min calls.toNat 7 := hlength
    omega
  · intro event hevent
    rw [hevents] at hevent
    obtain ⟨_, _, rfl⟩ := List.mem_map.mp (List.mem_of_mem_take hevent)
    exact ⟨_, _, rfl⟩
  · have hlast : Stage.all[7]? = some reached := by
      rw [← hreached]
      congr 1
      show 7 = min calls.toNat 7
      omega
    cases hlast
    exact ⟨hstays.status, hstays.round, hstays.weight⟩

section
variable {objectives constraints : List (Term α)} {initial : Tensor α} {paths : Option (List String)}

/-- Without a store, and without paths, a stationary layout stays. -/
theorem stationary_unmoved (laws : Scalar.IsRounded α) (hcheck : o.check = .ok ())
    (hearly : o.breaksEarly = true)
    (hstart : (o.start objectives constraints initial paths).result = .ok s₀)
    (henergy : s₀.energy = some energy) (still : Stationary o s₀ energy)
    (hunwritten : store = none ∨ paths = none) {budget : Int} (hbudget : 1 ≤ budget) {calls : Int}
    (hcalls : 0 ≤ calls) : ∃ s, Unmoved o s₀ store budget calls s := by
  have hpaths : store = none ∨ s₀.paths = [] := by
    refine hunwritten.imp_right fun hnone => ?_
    obtain ⟨_, _, _, hvalues, _, _, rfl⟩ := start_eq_ok hstart
    obtain ⟨_, ⟨_, hempty⟩ | ⟨hsome, _⟩⟩ := startValues_eq_ok hvalues
    · exact hempty
    · cases hnone.symm.trans hsome
  exact (start_stays hstart henergy).unmoved laws hcheck hearly still (takes_of_unwritten hpaths 3) hbudget
    hcalls

end

/-- **A stationary layout stays.** A run that starts from finite variables, at which the energies of the
first three rounds are finite and have no slope, never moves. It makes seven steps, or as many as are
allowed, and reports changes of status only. The seventh step ends it: it has converged in round two.
What a store has to take is written by the phases of the three rounds, if there are a store and paths. -/
theorem stationary_stays (laws : Scalar.IsRounded α) (hcheck : o.check = .ok ())
    (hearly : o.breaksEarly = true) {objectives constraints : List (Term α)} {initial : Tensor α}
    {paths : Option (List String)}
    (hstart : (o.start objectives constraints initial paths).result = .ok s₀)
    (henergy : s₀.energy = some energy) (still : Stationary o s₀ energy) (htakes : Takes s₀ 3 store)
    {budget : Int} (hbudget : 1 ≤ budget) {calls : Int} (hcalls : 0 ≤ calls) :
    ∃ s, (o.run s₀ store budget calls).result = .ok s ∧ s.values = s₀.values ∧
      (s.status.isTerminal = true ↔ 7 ≤ calls) ∧
      (o.runSteps budget calls.toNat s₀ store).length = min calls 7 ∧
      (∀ event ∈ (o.run s₀ store budget calls).events, ∃ old new, event = .status old new) ∧
      (7 ≤ calls → s.status = .converged ∧ s.round = 2 ∧
        s.weight = o.growth * (o.growth * o.initialWeight)) := by
  obtain ⟨s, h⟩ := (start_stays hstart henergy).unmoved laws hcheck hearly still htakes hbudget hcalls
  exact ⟨s, h.result, h.values, h.terminal, h.steps, h.changes, h.ends⟩

/-- A circle that can be moved sideways, and stands where it should. -/
def pinnedCircle : Store ℚ :=
  (({ shapes := [("A", [("center", .list [.number 3, .number 1]), ("r", .number 5)])] } :
    Store ℚ).declare ["A.center.0"]).2

/-- The terms of the circle: it is to stand at three, and before five. -/
def pinnedTerms : List (Term ℚ) × List (Term ℚ) :=
  ([⟨"equal", [.varying 0, .number 3], .objective⟩], [⟨"lessThan", [.varying 0, .number 5], .constraint⟩])

theorem pinnedCircle_stationary_stays : ∃ s₀ s,
    (exactly.start pinnedTerms.1 pinnedTerms.2 (.array [.entry 3]) (some pinnedCircle.varying)).result =
      .ok s₀ ∧ (exactly.run s₀ (some pinnedCircle) 1 1000).result = .ok s ∧ s.values = [3] ∧
    s.status = .converged ∧ s.round = 2 ∧ s.weight = 1 := by
  have declared : Store.Declared _ pinnedCircle := .call _ .start
  have hpath : Shapes.Path.read "A.center.0" = .ok ⟨"A", "center", some 0⟩ := by decide +kernel
  have hwritable : pinnedCircle.Writable := by
    intro path hmem
    rintro ⟨p, i, text, hread, _, htext⟩
    have hvarying : pinnedCircle.varying = ["A.center.0"] := by decide +kernel
    rw [hvarying, List.mem_singleton] at hmem
    subst hmem
    cases hpath.symm.trans hread
    cases htext
  have hreached : ∃ s₀ energy,
      (exactly.start pinnedTerms.1 pinnedTerms.2 (.array [.entry 3]) (some pinnedCircle.varying)).result =
        .ok s₀ ∧ s₀.energy = some energy ∧ s₀.values = [3] ∧
      ∀ round < 3, (⟨energy, exactly.roundWeight round⟩ : WeightedEnergy ℚ).IsStationary [3] := by
    have htest : (exactly.start pinnedTerms.1 pinnedTerms.2 (.array [.entry 3])
        (some pinnedCircle.varying)).result.toOption.any (fun s₀ : State ℚ =>
          s₀.values == [3] && s₀.energy.any fun energy => decide (∀ round : Nat, round < 3 →
            (⟨energy, exactly.roundWeight round⟩ : WeightedEnergy ℚ).IsStationary [3])) = true := by
      decide +kernel
    obtain ⟨s₀, hs₀, htest⟩ := (Option.any_eq_true _ _).mp htest
    rw [Bool.and_eq_true, beq_iff_eq] at htest
    obtain ⟨energy, henergy, hstationary⟩ := (Option.any_eq_true _ _).mp htest.2
    exact ⟨s₀, energy, toOption_eq_some_iff.mp hs₀, henergy, htest.1, of_decide_eq_true hstationary⟩
  obtain ⟨s₀, energy, hstart, henergy, hvalues, hstationary⟩ := hreached
  have still : Stationary exactly s₀ energy :=
    { finite := fun _ _ => rfl
      weight := fun _ _ => rfl
      stationary := fun round hround => hvalues ▸ hstationary round hround }
  obtain ⟨s, hresult, hstays, _, _, _, hend⟩ := stationary_stays (FieldScalar.isRounded rfl)
    (by decide +kernel) rfl hstart henergy still ((start_backed hstart).takes declared hwritable 3)
    (le_refl 1) (by decide : (0 : ℤ) ≤ 1000)
  obtain ⟨hstatus, hround, hweight⟩ := hend (by decide)
  exact ⟨s₀, s, hstart, hresult, hstays.trans hvalues, hstatus, hround, hweight.trans (by decide +kernel)⟩

end Optimizer

end DiagramLayout

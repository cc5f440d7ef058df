import DiagramLayout.Optimizer.Phase
import DiagramLayout.Shapes.Store
import DiagramLayout.Tensor

/-!
# The exterior-point method

* `Optimizer.start`: the state before the first step;
* `Optimizer.step`: one step, which starts a round, runs a phase, or compares two rounds;
* `Optimizer.run`: steps until the run has come to its end;
* `Optimizer.resample`: a new start from other variables.

A number that is no longer finite ends the run with a failure; only a broken rule or a problem that
cannot be compiled leaves a step without a state.
-/

namespace DiagramLayout

/-- What an operation of the optimizer does: its result, the events it reports and the store of
shapes it leaves. -/
structure Turn (α β : Type) where
  result : Except Fault β
  events : List (Event α) := []
  store : Option (Shapes.Store α) := none

namespace Optimizer

variable {α : Type} [Scalar α]

/-- The energy of a problem, and a warning when there are no terms. -/
def compile (o : Optimizer α) (p : Problem α) : Except Fault (Energy α) × List (Event α) :=
  match Energy.compile p o.library o.scale Energy.defaultPenalty with
  | .ok e => (.ok e, if p.isEmpty then [.warning .emptyProblem] else [])
  | .error cause => (.error cause, [])

/-- The variables of a run that starts from an array, and its paths. -/
def startValues (initial : Tensor α) (paths : Option (List String)) :
    Except Fault (List α × List String) := do
  match initial.shape?, initial.flat? with
  | none, _ => throw .badShape
  | some _, some xs =>
    match paths with
    | none => return (xs, [])
    | some ps =>
      if ps.length = xs.length then return (xs, ps) else throw (.pathCount ps.length xs.length)
  | some shape, none => throw (.notFlat shape)

/-- The state before the first step. -/
def start (o : Optimizer α) (objectives constraints : List (Term α)) (initial : Tensor α)
    (paths : Option (List String)) : Turn α (State α) :=
  match startValues initial paths with
  | .error cause => { result := .error cause }
  | .ok (values, paths) =>
    let (compiled, events) := o.compile ⟨objectives, constraints, values.length⟩
    let result := do
      let energy ← compiled
      let memory ← Lbfgs.Memory.fresh o.historySize
      return { values, objectives, constraints, paths, energy := some energy, status := .fresh,
               weight := o.initialWeight, memory }
    { result, events }

/-- A new start from other variables of the same number, with the energy that is there. -/
def resample (o : Optimizer α) (s : State α) (initial : Tensor α) : Turn α (State α) :=
  match initial.shape?, initial.flat? with
  | none, _ => { result := .error .badShape }
  | some shape, flat =>
    match flat with
    | some values =>
      if shape = [s.count] then
        { result := .ok {
            values, objectives := s.objectives, constraints := s.constraints, paths := s.paths,
            energy := s.energy, status := .fresh, weight := o.initialWeight,
            memory := s.memory.reset }
          events := Event.change s.status .fresh }
      else { result := .error (.resampleShape s.count shape) }
    | none => { result := .error (.resampleShape s.count shape) }

/-- The outcome of a step before it is reported: no state when there is nothing to do. -/
abbrev Advance (α : Type) := Except Interruption (Option (State α))

/-- The first step of a run: the energy at the first weight, and an empty memory. -/
def startRound (o : Optimizer α) (s : State α) : Advance α × List (Event α) :=
  let (compiled, events) : Except Fault (Energy α) × List (Event α) := match s.energy with
    | some e => (.ok e, [])
    | none => o.compile s.problem
  let result := Interruption.lift do
    let energy ← compiled
    let objective ← energy.atWeight o.initialWeight
    let memory ← Lbfgs.Memory.fresh o.historySize
    let still := Vec.zeros s.count
    return some { s with
      energy := some energy, weight := o.initialWeight, round := 0, phase := 0,
      objective := some objective, lastSlopes := some ⟨still, still⟩, memory, status := .running }
  (result, events)

/-- The values of the variables written to the store of shapes, if there are one and paths. -/
def project (s : State α) (store : Option (Shapes.Store α)) :
    Except Fault Unit × Option (Shapes.Store α) :=
  match store with
  | none => (.ok (), none)
  | some shapes =>
    if s.paths.isEmpty then (.ok (), some shapes)
    else
      let (result, shapes') := shapes.insert s.projection
      (result, some shapes')

/-- The state after a phase. -/
def afterPhase (o : Optimizer α) (s : State α) (d : Descent α) : State α :=
  let converged := phaseConverged d.reading.decrement o.phaseStop
  { s with
    values := d.values
    lastPhase := some ⟨d.values, d.reading.energy⟩
    phase := s.phase + 1
    memory := if converged then d.reading.memory.reset else d.reading.memory
    lastSlopes := some d.reading.slopes
    status := if converged then .settled else .running }

/-- A phase of at most `budget` iterations; without a budget there is nothing to do. -/
def runPhase (o : Optimizer α) (s : State α) (store : Option (Shapes.Store α)) (budget : Nat)
    (p : Preconditioner α := Preconditioner.ofMemory) :
    Advance α × List (Event α) × Option (Shapes.Store α) :=
  match budget with
  | 0 => (.ok none, [], store)
  | further + 1 =>
    match s.objective with
    | none => (.error (.fault (.violated .objectiveReady)), [], store)
    | some e =>
      match o.descend s e further 0 s.values s.memory p with
      | (events, .error cause) => (.error cause, events, store)
      | (events, .ok d) =>
        let s' := o.afterPhase s d
        let (written, store') := project s' store
        (Interruption.lift (written.map fun () => some s'), events, store')

/-- Whether two rounds ended near each other, in state or in energy. -/
def roundConverged (xs ys : List α) (fx fy tolerance : α) : Except Fault Bool :=
  match Vec.pairwise? (· - ·) ys xs with
  | none => .error .badShape
  | some d =>
    .ok (Scalar.less (Vec.norm d) tolerance || Scalar.less (Scalar.abs (fy - fx)) tolerance)

/-- Whether the run has converged: from the second round on the ends of two rounds are compared. -/
def hasConverged (o : Optimizer α) (s : State α) : Except Fault Bool :=
  if 1 < s.round then
    match s.lastRound, s.lastPhase with
    | some before, some now =>
      roundConverged before.values now.values before.energy now.energy o.roundStop
    | _, _ => .ok false
  else .ok false

/-- The step after a round: the end of the run, or the next round at a greater weight. -/
def closeRound (o : Optimizer α) (s : State α) : Advance α :=
  Interruption.lift do
    match s.energy with
    | none => throw (.violated .energyReady)
    | some energy =>
      if ← o.hasConverged s then
        return some { s with status := .converged, lastRound := s.lastPhase }
      let weight := o.growth * s.weight
      require (Scalar.atMost s.weight weight) .weightGrows
      let objective ← energy.atWeight weight
      return some { s with
        status := .running, weight, round := s.round + 1, phase := 0,
        objective := some objective, lastRound := s.lastPhase }

/-- A step of a run that has not come to its end. -/
def advance (o : Optimizer α) (s : State α) (store : Option (Shapes.Store α)) (budget : Nat)
    (p : Preconditioner α := Preconditioner.ofMemory) :
    Advance α × List (Event α) × Option (Shapes.Store α) :=
  match ensureFinite .values s.values with
  | .error cause => (.error cause, [], store)
  | .ok () =>
    match s.status with
    | .fresh => let (result, events) := o.startRound s; (result, events, store)
    | .running => o.runPhase s store budget p
    | .settled => (o.closeRound s, [], store)
    | status => (.error (.fault (.violated (.knownStatus status.text))), [], store)

/-- One step with a budget of iterations. The result is no state when there is nothing to do. -/
def step (o : Optimizer α) (s : State α) (store : Option (Shapes.Store α)) (budget : Int)
    (p : Preconditioner α := Preconditioner.ofMemory) : Turn α (Option (State α)) :=
  if budget < 0 then { result := .error (.violated .budget), store }
  else if s.status.isTerminal then { result := .ok none, store }
  else
    match o.advance s store budget.toNat p with
    | (.ok none, events, store) => { result := .ok none, events, store }
    | (.ok (some s'), events, store) =>
      { result := .ok (some s'), events := events ++ Event.change s.status s'.status, store }
    | (.error (.numeric cause), events, store) =>
      let status := Status.failed (some cause.message)
      { result := .ok (some { s with status })
        events := events ++ .warning (.noLayout cause s.round s.weight) ::
          Event.change s.status status
        store }
    | (.error (.fault cause), events, store) => { result := .error cause, events, store }

/-- Steps until the run has come to its end, `calls` at most. -/
def runFor (o : Optimizer α) (budget : Int) (calls : Nat) (s : State α)
    (store : Option (Shapes.Store α)) (p : Preconditioner α := Preconditioner.ofMemory) :
    Turn α (State α) :=
  match calls with
  | 0 => { result := .ok s, store }
  | calls + 1 =>
    if s.status.isTerminal then { result := .ok s, store }
    else
      let turn := o.step s store budget p
      match turn.result with
      | .error cause => { result := .error cause, events := turn.events, store := turn.store }
      | .ok next =>
        let rest := runFor o budget calls (next.getD s) turn.store p
        { rest with events := turn.events ++ rest.events }

/-- Steps until the run has come to its end; the number of calls must not be negative. -/
def run (o : Optimizer α) (s : State α) (store : Option (Shapes.Store α)) (budget calls : Int)
    (p : Preconditioner α := Preconditioner.ofMemory) : Turn α (State α) :=
  if calls < 0 then { result := .error (.violated .callLimit), store }
  else o.runFor budget calls.toNat s store p

end Optimizer

end DiagramLayout

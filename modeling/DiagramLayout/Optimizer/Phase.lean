import DiagramLayout.Optimizer.Config
import DiagramLayout.Optimizer.Event

/-!
# One phase of minimization

A phase takes a bounded number of quasi-Newton steps on the energy of the round. It ends early when
the decrement is small enough, and it is interrupted when a number is no longer finite. The direction of
a step is that of a preconditioner, which is the memory of the round if no other is given.
-/

namespace DiagramLayout

/-- Why a phase is interrupted. -/
inductive Interruption where
  | numeric (cause : NonFinite)
  | fault (cause : Fault)
deriving DecidableEq

/-- What is known at a point: the energy and its slopes, the decrement and the memory with the
point. -/
structure Reading (α : Type) where
  energy : α
  slopes : Slopes α
  decrement : α
  memory : Lbfgs.Memory α

/-- The outcome of one iteration. -/
inductive Iterate (α : Type) where
  | interrupted (trials : List (LineSearch.Trial α)) (cause : Interruption)
  | settled (reading : Reading α)
  | moved (reading : Reading α) (trials : List (LineSearch.Trial α)) (step : α) (next : List α)

/-- The end of a phase: the variables, and what was read last. -/
structure Descent (α : Type) where
  values : List α
  reading : Reading α

variable {α : Type} [Scalar α]

/-- A quantity all of whose entries are finite. -/
def ensureFinite (q : Quantity) (v : List α) : Except Interruption Unit :=
  match Vec.nonFinite v with
  | [] => .ok ()
  | entries => .error (.numeric ⟨q, entries⟩)

/-- A fault as an interruption. -/
def Interruption.lift {β : Type} : Except Fault β → Except Interruption β
  | .ok b => .ok b
  | .error e => .error (.fault e)

namespace Optimizer

/-- The energy, the gradient and the direction at a point. -/
def read (e : WeightedEnergy α) (m : Lbfgs.Memory α) (xs : List α)
    (p : Preconditioner α := Preconditioner.ofMemory) : Except Interruption (Reading α) := do
  ensureFinite .values xs
  let energy ← Interruption.lift (e.value xs)
  let gradient ← Interruption.lift (e.gradient xs)
  ensureFinite .energy [energy]
  ensureFinite .gradient gradient
  let (direction, memory) ← Interruption.lift (p m xs gradient)
  return { energy, slopes := ⟨gradient, direction⟩, decrement := Vec.dot gradient direction, memory }

/-- Whether a decrement is small enough. -/
def phaseConverged (decrement tolerance : α) : Bool := Scalar.less decrement tolerance

/-- The line against the direction at a point. -/
def line (e : WeightedEnergy α) (xs : List α) (r : Reading α) : LineSearch.Line α where
  start := xs
  direction := Vec.neg r.slopes.direction
  value := e.value
  gradient := e.gradient
  startValue := r.energy
  startSlope := Vec.dot (Vec.neg r.slopes.direction) r.slopes.gradient

/-- The length of the step at a point, and the trials made for it. -/
def stepLength (o : Optimizer α) (e : WeightedEnergy α) (xs : List α) (r : Reading α) :
    Except Fault (LineSearch.Result α) :=
  if o.searches then LineSearch.search (line e xs r) o.lineSearch o.lineSearch.maxSteps
  else .ok ⟨o.fixedStep, []⟩

/-- One iteration at a point. -/
def iterate (o : Optimizer α) (e : WeightedEnergy α) (xs : List α) (m : Lbfgs.Memory α)
    (p : Preconditioner α := Preconditioner.ofMemory) : Iterate α :=
  match read e m xs p with
  | .error cause => .interrupted [] cause
  | .ok r =>
    if o.breaksEarly && phaseConverged r.decrement o.phaseStop then .settled r
    else
      match o.stepLength e xs r with
      | .error cause => .interrupted [] (.fault cause)
      | .ok found =>
        let next := Vec.sub xs (Vec.scale found.step r.slopes.direction)
        match ensureFinite .update next with
        | .error cause => .interrupted found.trials cause
        | .ok () => .moved r found.trials found.step next

/-- The steps of a phase from iteration `number` on, and `further` ones after it at most. -/
def descend (o : Optimizer α) (s : State α) (e : WeightedEnergy α) (further number : Nat)
    (xs : List α) (m : Lbfgs.Memory α) (p : Preconditioner α := Preconditioner.ofMemory) :
    List (Event α) × Except Interruption (Descent α) :=
  match o.iterate e xs m p with
  | .interrupted trials cause => (trials.map .trial, .error cause)
  | .settled r => ([], .ok ⟨xs, r⟩)
  | .moved r trials step next =>
    let row : Iteration α :=
      { round := s.round, phase := s.phase, number, weight := s.weight, energy := r.energy,
        decrement := r.decrement, step, values := xs }
    let events := trials.map .trial ++ [.iteration row]
    match further with
    | 0 => (events, .ok ⟨next, r⟩)
    | further + 1 =>
      let (later, result) := descend o s e further (number + 1) next r.memory p
      (events ++ later, result)

end Optimizer

end DiagramLayout

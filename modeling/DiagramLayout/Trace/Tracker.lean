import DiagramLayout.Optimizer.Event

namespace DiagramLayout.Trace

/-- The row of an iteration. -/
structure IterationRow (α : Type) where
  run : String
  /-- The number of the row. -/
  step : Nat
  status : Status
  iteration : Iteration α
  /-- The change of the energy since the row before, if that has the same weight. -/
  change : Option α
  /-- The time since the reading of the clock before. -/
  cost : Option α

/-- The row of a change of status. -/
structure StatusRow where
  run : String
  /-- The number of the iteration rows before it. -/
  step : Nat
  old : Status
  new : Status

/-- The row of a trial. -/
structure TrialRow (α : Type) where
  run : String
  /-- The number of the search. -/
  search : Nat
  trial : LineSearch.Trial α

/-- The rows of a run and what is needed for the next one; rows are kept in order. -/
structure Tracker (α : Type) where
  run : String := "default"
  rows : List (IterationRow α) := []
  statusRows : List StatusRow := []
  step : Nat := 0
  status : Status := .fresh
  /-- The round and the energy of the last row. -/
  last : Option (Int × α) := none
  /-- The last reading of the clock. -/
  clock : Option α := none

namespace Tracker

variable {α : Type} [Scalar α]

/-- The change of the energy since the last row of the same round. -/
def change (t : Tracker α) (i : Iteration α) : Option α :=
  match t.last with
  | some (round, energy) => if round = i.round then some (i.energy - energy) else none
  | none => none

/-- The row of an iteration at a reading of the clock. -/
def row (t : Tracker α) (now : α) (i : Iteration α) : IterationRow α where
  run := t.run
  step := t.step + 1
  status := t.status
  iteration := i
  change := t.change i
  cost := t.clock.map (now - ·)

/-- An iteration at a reading of the clock. -/
def iterated (t : Tracker α) (now : α) (i : Iteration α) : Tracker α :=
  { t with
    rows := t.rows ++ [t.row now i]
    step := t.step + 1
    last := some (i.round, i.energy)
    clock := some now }

/-- A change of status. -/
def changed (t : Tracker α) (old new : Status) : Tracker α :=
  { t with
    statusRows := t.statusRows ++ [{ run := t.run, step := t.step, old, new }]
    status := new }

/-- An event at a reading of the clock. -/
def observe (t : Tracker α) (now : α) : Event α → Tracker α
  | .iteration i => t.iterated now i
  | .status old new => t.changed old new
  | _ => t

end Tracker

/-- The rows of line searches; a trial numbered zero begins a search. -/
structure SearchTracker (α : Type) where
  run : String := "default"
  rows : List (TrialRow α) := []
  search : Nat := 0

namespace SearchTracker

variable {α : Type}

/-- A trial of a search. -/
def tried (t : SearchTracker α) (trial : LineSearch.Trial α) : SearchTracker α :=
  let search := if trial.number = 0 then t.search + 1 else t.search
  { t with rows := t.rows ++ [{ run := t.run, search, trial }], search }

/-- An event. -/
def observe (t : SearchTracker α) : Event α → SearchTracker α
  | .trial trial => t.tried trial
  | _ => t

end SearchTracker

end DiagramLayout.Trace

import DiagramLayout.Energy.Compile
import DiagramLayout.Energy.Terms
import DiagramLayout.Lbfgs

/-!
# The state of an optimization

A run goes through rounds of growing weight. Within a round the energy is minimized in phases of
bounded length:

  `fresh → running ⇄ settled → converged`, and from each of the first three to `failed`.
-/

namespace DiagramLayout

/-- Where a run stands. -/
inductive Status where
  /-- The variables are new. -/
  | fresh
  /-- The energy of the round is being minimized. -/
  | running
  /-- The energy of the round is minimal. -/
  | settled
  /-- The rounds have converged. -/
  | converged
  /-- No layout could be found. -/
  | failed (message : Option String)
deriving DecidableEq, Repr

namespace Status

/-- The name of a status. -/
def name : Status → String
  | fresh => "NewIter"
  | running => "UnconstrainedRunning"
  | settled => "UnconstrainedConverged"
  | converged => "EPConverged"
  | failed _ => "Error"

/-- Whether a run has come to its end. -/
def isTerminal : Status → Bool
  | converged | failed _ => true
  | _ => false

/-- The message of a failure. -/
def message? : Status → Option String
  | failed message => message
  | _ => none

/-- A status as it stands in the wording of a fault. -/
def text : Status → String
  | failed none => "Error(message=None)"
  | failed (some message) => "Error(message=" ++ Text.quoted message ++ ")"
  | status => status.name ++ "()"

end Status

/-- A vector of variables and the energy recorded with it. -/
structure Located (α : Type) where
  values : List α
  energy : α

/-- A gradient and the quasi-Newton direction made from it. -/
structure Slopes (α : Type) where
  gradient : List α
  direction : List α

/-- The state of a run. -/
structure State (α : Type) where
  values : List α
  objectives : List (Term α)
  constraints : List (Term α)
  paths : List String
  energy : Option (Energy α)
  status : Status
  weight : α
  /-- The number of the round. -/
  round : Nat := 0
  /-- The number of phases done in the round. -/
  phase : Nat := 0
  /-- The energy at the weight of the round. -/
  objective : Option (WeightedEnergy α) := none
  /-- The end of the last phase. -/
  lastPhase : Option (Located α) := none
  /-- The end of the last round. -/
  lastRound : Option (Located α) := none
  lastSlopes : Option (Slopes α) := none
  memory : Lbfgs.Memory α

namespace State

variable {α : Type}

/-- The number of variables. -/
def count (s : State α) : Nat := s.values.length

/-- The problem that a state belongs to. -/
def problem (s : State α) : Problem α := ⟨s.objectives, s.constraints, s.count⟩

/-- The values of the paths: one entry for a path, the last that it has. -/
def projection (s : State α) : List (String × α) := Keyed.ofList (s.paths.zip s.values)

variable [Scalar α]

/-- The energy of the variables at the weight of the round, if there is an energy. -/
def currentEnergy (s : State α) : Except Fault (Option α) :=
  match s.energy with
  | none => .ok none
  | some e => do
    let objective ← e.atWeight s.weight
    return some (← objective.value s.values)

/-- The values of the single terms at the variables. -/
def termValues (s : State α) (library : Library α) : Except Fault (List (String × α)) := do
  let terms ← s.problem.compileTerms library
  terms.mapM fun (key, t) => return (key, ← t.value s.values)

end State

end DiagramLayout

import DiagramLayout.Graph.Sweep
import DiagramLayout.Graph.Record

/-!
# Graphs with the values of their last pass

A tape keeps what the last evaluation of its graph computed, for the sweep and for looking at single
nodes. A pass that stops at a missing input leaves the values up to there and zeros after them.
-/

namespace DiagramLayout

/-- A graph and the values of its last pass; nodes that are newer than the pass have none. -/
structure Tape (α : Type) where
  graph : Graph α := {}
  values : Array α := #[]

namespace Tape

variable {α : Type} [Scalar α]

/-- A value of zero for every node. -/
def reset (t : Tape α) : Tape α := { t with values := Array.replicate t.graph.size 0.0 }

/-- A pass over the nodes up to `out`. -/
def forward (t : Tape α) (p : Point α) (out : Nat) : Except Fault α × Tape α :=
  let values := t.graph.valuesUpTo p out
  let result := match values[out]? with
    | some x => .ok x
    | none => .error (.outOfRange .list)
  (result, { t with values := values ++ Array.replicate (t.graph.size - values.size) 0.0 })

/-- The gradient of a node by `count` inputs at the values of the last pass. -/
def backward (t : Tape α) (out : Nat) (count : Int) : Except Fault (List α) :=
  if t.values.size ≤ out then .error (.outOfRange .list)
  else if count < 0 then .error .badShape
  else t.graph.backward t.values out count.toNat

/-- A pass and its gradient. -/
def gradient (t : Tape α) (p : Point α) (out : Nat) : Except Fault (α × List α) × Tape α :=
  match t.forward p out with
  | (.ok x, t') => ((t'.backward out p.inputs.length).map ((x, ·)), t')
  | (.error e, t') => (.error e, t')

/-- The value of a node in the last pass. -/
def valueOf (t : Tape α) (out : Nat) : Except Fault α :=
  match t.values[out]? with
  | some x => .ok x
  | none => .error (.outOfRange .list)

/-- The value at a position; a negative one counts from the end. -/
def valueAt (t : Tape α) (position : Int) : Except Fault α :=
  if 0 ≤ position then t.valueOf position.toNat
  else if position + t.values.size < 0 then .error (.outOfRange .list)
  else t.valueOf (position + t.values.size).toNat

/-- A pass over the nodes up to a position, none for a negative one. -/
def forwardAt (t : Tape α) (p : Point α) (position : Int) : Except Fault α × Tape α :=
  if 0 ≤ position then t.forward p position.toNat
  else (t.reset.valueAt position, t.reset)

/-- The gradient at a position. A negative one counts from the end, and no node is swept for it. -/
def backwardAt (t : Tape α) (position count : Int) : Except Fault (List α) :=
  if 0 ≤ position then t.backward position.toNat count
  else if position + t.values.size < 0 then .error (.outOfRange .list)
  else if count < 0 then .error .badShape
  else .ok (List.replicate count.toNat 0.0)

/-- A pass and its gradient at a position. -/
def gradientAt (t : Tape α) (p : Point α) (position : Int) : Except Fault (α × List α) × Tape α :=
  match t.forwardAt p position with
  | (.ok x, t') => ((t'.backwardAt position p.inputs.length).map ((x, ·)), t')
  | (.error e, t') => (.error e, t')

/-- A recording on the tape's graph. -/
def run {β : Type} (t : Tape α) (r : Recording α β) : Except Fault β × Tape α :=
  let (result, graph) := r.run.run t.graph
  (result, { t with graph })

end Tape

end DiagramLayout

import DiagramLayout.Formula.Basic
import DiagramLayout.Graph.Tape

/-!
# Several graphs side by side

In a workspace a formula can meet handles of several graphs. Each operation goes to the graph of its
first handle, which refuses handles of the others.
-/

namespace DiagramLayout

/-- Graphs by number; a graph that was not used yet is empty. -/
structure Workspace (α : Type) where
  tapes : List (Tape α) := []

namespace Workspace

variable {α : Type}

/-- The graph with a number. -/
def tape (w : Workspace α) (number : Nat) : Tape α :=
  (w.tapes.find? (·.graph.number == number)).getD { graph := { number } }

/-- A graph put in place of the one with its number. -/
def put (w : Workspace α) (t : Tape α) : Workspace α :=
  ⟨t :: w.tapes.filter (·.graph.number != t.graph.number)⟩

/-- A recording on one of the graphs. -/
def record {β : Type} (w : Workspace α) (number : Nat) (r : Recording α β) :
    Except Fault β × Workspace α :=
  let (result, t) := (w.tape number).run r
  (result, w.put t)

variable [Scalar α]

/-- A formula recorded on the graphs of its handles. -/
def run {β : Type} : Formula α β → Workspace α → Except Fault β × Workspace α
  | .done b, w => (.ok b, w)
  | .fault e, w => (.error e, w)
  | .operate op operands next, w =>
    match operands.findSome? Value.graph? with
    | none =>
      match op.onNumbers operands with
      | .ok v => run (next v) w
      | .error e => (.error e, w)
    | some number =>
      match w.record number (Graph.recordOperation op operands) with
      | (.ok v, w') => run (next v) w'
      | (.error e, w') => (.error e, w')

end Workspace

end DiagramLayout

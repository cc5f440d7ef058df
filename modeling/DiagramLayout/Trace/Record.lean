import DiagramLayout.Scalar.Double
import DiagramLayout.Trace.Tracker
import DiagramLayout.Log.Files

namespace DiagramLayout.Trace

open Log

/-- A number that may be unknown. -/
def cellOf (x : Option Float) : Cell := .number (x.getD (0.0 / 0.0))

/-- The cells of an iteration; the entries of the vector of variables stand at the end if they are
wanted. -/
def IterationRow.record (withVariables : Bool) (r : IterationRow Float) : Record :=
  [("run_id", .text r.run), ("step", .integer r.step), ("status", .text r.status.name),
    ("ep_round", .integer r.iteration.round), ("uo_round", .integer r.iteration.phase),
    ("iteration", .integer r.iteration.number), ("weight", .number r.iteration.weight),
    ("energy", .number r.iteration.energy), ("delta_energy", cellOf r.change),
    ("grad_norm", .number r.iteration.decrement), ("step_length", .number r.iteration.step),
    ("compute_cost", cellOf r.cost)] ++
  if withVariables then
    r.iteration.values.zipIdx.map fun (x, i) => ("x:" ++ toString i, .number x)
  else []

/-- The cells of a change of status. -/
def StatusRow.record (r : StatusRow) : Record :=
  [("run_id", .text r.run), ("step", .integer r.step), ("from", .text r.old.name),
    ("to", .text r.new.name), ("message", .text (r.new.message?.getD ""))]

/-- The cells of a trial. -/
def TrialRow.record (r : TrialRow Float) : Record :=
  [("run_id", .text r.run), ("search", .integer r.search), ("iter", .integer r.trial.number),
    ("a", .number r.trial.lower), ("b", .number (r.trial.upper.getD (1.0 / 0.0))),
    ("t", .number r.trial.step), ("armijo", .truth r.trial.decreases),
    ("wolfe", .truth r.trial.flattens)]

/-- A computation on a tracker and the directory of logs; both outlive a fault. -/
abbrev Flushing (τ : Type) : Type → Type := ExceptT Fault (StateM (τ × Directory))

/-- Records appended to a log, and then the rows that they were made from forgotten. -/
def flushLog {τ : Type} (name : String) (records : τ → List Record) (forget : τ → τ) :
    Flushing τ Unit :=
  ExceptT.mk fun (t, d) =>
    match (Directory.write name (records t)).run.run d with
    | (.ok (), d) => (.ok (), forget t, d)
    | (.error cause, d) => (.error cause, t, d)

/-- The rows of a tracker appended to its two logs. -/
def Tracker.flush (withVariables : Bool) : Flushing (Tracker Float) Unit := do
  flushLog "optimization_trace" (·.rows.map (IterationRow.record withVariables))
    fun t => { t with rows := [] }
  flushLog "optimization_trace_status" (·.statusRows.map StatusRow.record)
    fun t => { t with statusRows := [] }

/-- The rows of a tracker appended to its log. -/
def SearchTracker.flush : Flushing (SearchTracker Float) Unit :=
  flushLog "line_search_trace" (·.rows.map TrialRow.record) fun t => { t with rows := [] }

end DiagramLayout.Trace

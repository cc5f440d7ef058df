import DiagramLayout.Energy.Problem
import DiagramLayout.Term.Binding

namespace DiagramLayout

variable {α : Type} [Scalar α]

/-- A recording whose faults are reported as those of building a term. An integer that is too large
stays a fault of its own. -/
def Recording.building {β : Type} (term : String) (r : Recording α β) : Recording α β :=
  ExceptT.mk do
    match ← r.run with
    | .ok b => return .ok b
    | .error .tooLarge => return .error .tooLarge
    | .error cause => return .error (.cannotBuild term cause)

/-- The node of a term. -/
def ResolvedTerm.record (t : ResolvedTerm α) : Recording α (Value α) := do
  let arguments ← Graph.bindArguments t.term.arguments
  let result ← Recording.building t.term.text (t.function.call arguments).record
  if result.isList then throw (.notScalar t.term.text)
  Graph.lift result

/-- The number of a node that a recording ends with. -/
def Recording.node (r : Recording α (Value α)) : Recording α Nat := do
  match ← r with
  | .handle h => return h.node
  | _ => throw .wrongForm

end DiagramLayout

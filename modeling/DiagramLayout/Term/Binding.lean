import DiagramLayout.Term.Basic
import DiagramLayout.Graph.Record

/-!
# Binding the arguments of a term

References to variables become input nodes and numbers become constants; text, truth values and
nothing are no arguments.
-/

namespace DiagramLayout.Graph

variable {α : Type} [Scalar α]

mutual

/-- An argument of a term on a graph. -/
def bindArgument : Value α → Recording α (Value α)
  | .varying index => recordInput index
  | .list vs => do return .list (← bindArguments vs)
  | .truth b => throw (.unsupportedArgument (Value.toText (.truth b : Value α)))
  | .text s => throw (.unsupportedArgument (Value.toText (.text s : Value α)))
  | .absent => throw (.unsupportedArgument (Value.toText (.absent : Value α)))
  | v => lift v

/-- The arguments of a term on a graph, from left to right. -/
def bindArguments : List (Value α) → Recording α (List (Value α))
  | [] => return []
  | v :: vs => do
    let w ← bindArgument v
    return w :: (← bindArguments vs)

end

end DiagramLayout.Graph

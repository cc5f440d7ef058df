import DiagramLayout.Term.Basic
import DiagramLayout.Formula.Function

/-!
# Layout problems

A problem is a list of objectives, a list of constraints and a number of variables. Before anything
is built every term is resolved: its function is looked up, the variables it refers to are checked,
and its arguments are matched with the function's parameters.
-/

namespace DiagramLayout

/-- The terms of a layout and the number of its variables. -/
structure Problem (α : Type) where
  objectives : List (Term α)
  constraints : List (Term α)
  count : Int

/-- The functions that terms can name. -/
structure Library (α : Type) where
  objectives : Dictionary α
  constraints : Dictionary α

/-- A term and the function that it names. -/
structure ResolvedTerm (α : Type) where
  term : Term α
  function : TermFunction α

variable {α : Type} [Scalar α]

/-- A term with its function. An unknown name is reported before a variable out of range, and that
before arguments that do not fit. -/
def Term.resolve (t : Term α) (kind : TermKind) (functions : Dictionary α) (count : Int) :
    Except Fault (ResolvedTerm α) :=
  match functions.lookup t.name with
  | none => .error (.unresolved kind t.name)
  | some f =>
    match t.indices.find? fun i => i < 0 || count ≤ i with
    | some i => .error (.variableOutside kind t.text i count)
    | none =>
      match TermFunction.bind f.parameters t.arguments with
      | .error cause => .error (.badArity kind t.text cause)
      | .ok _ => .ok ⟨t, f⟩

namespace Problem

/-- The terms of a problem with their functions, the objectives before the constraints. -/
def resolve (p : Problem α) (library : Library α) :
    Except Fault (List (ResolvedTerm α) × List (ResolvedTerm α)) := do
  let objectives ← p.objectives.mapM fun t => t.resolve .objective library.objectives p.count
  let constraints ← p.constraints.mapM fun t => t.resolve .constraint library.constraints p.count
  return (objectives, constraints)

/-- A number for the problem's own graph, of which no handle occurs in a term. -/
def nextGraph (p : Problem α) : Nat :=
  Value.nextGraphOfAll ((p.objectives ++ p.constraints).flatMap Term.arguments)

/-- Whether a problem has no terms. -/
def isEmpty (p : Problem α) : Bool := p.objectives.isEmpty && p.constraints.isEmpty

end Problem

end DiagramLayout

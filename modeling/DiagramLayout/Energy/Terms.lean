import DiagramLayout.Energy.Build
import DiagramLayout.Graph.Sweep
import DiagramLayout.Keyed

/-!
# The energies of single terms

Each term of a problem built on a graph of its own: an objective as it is, a constraint without its
penalty. The entries are named by kind and term; terms with one name share one entry.
-/

namespace DiagramLayout

/-- A term as a node of its own graph. -/
structure TermEnergy (α : Type) where
  name : String
  graph : Graph α
  output : Nat

namespace TermEnergy

variable {α : Type} [Scalar α]

/-- A term alone. -/
def compile (t : ResolvedTerm α) : Except Fault (TermEnergy α) := do
  let number := Value.nextGraphOfAll t.term.arguments
  let (result, graph) := (Recording.node t.record).run.run { number }
  return { name := t.term.text, graph, output := ← result }

/-- The value of a term at a vector of variables. -/
def value (t : TermEnergy α) (xs : List α) : Except Fault α :=
  t.graph.forward { inputs := xs } t.output

/-- The value and the gradient of a term at a vector of variables. -/
def gradient (t : TermEnergy α) (xs : List α) : Except Fault (α × List α) :=
  t.graph.gradient { inputs := xs } t.output

/-- A term alone, under its key. -/
def entry (kind : TermKind) (t : ResolvedTerm α) : Except Fault (String × TermEnergy α) := do
  let energy ← compile t
  return (kind.key ++ ":" ++ energy.name, energy)

end TermEnergy

/-- The terms of a problem, each alone, by key. -/
def Problem.compileTerms {α : Type} [Scalar α] (p : Problem α) (library : Library α) :
    Except Fault (List (String × TermEnergy α)) := do
  let (objectives, constraints) ← p.resolve library
  let first ← objectives.mapM (TermEnergy.entry .objective)
  let second ← constraints.mapM (TermEnergy.entry .constraint)
  return Keyed.ofList (first ++ second)

end DiagramLayout

import DiagramLayout.Energy.Build
import DiagramLayout.Formula.Vector
import DiagramLayout.Graph.Sweep
import DiagramLayout.Catalog

/-!
# The energy of a problem

All terms of a problem are built on one graph, whose output is

  `Σ objectives + (Σ penalties) · (scale · weight)`.

The weight is a slot, so the energy can be evaluated at any weight without being built again.

* `Energy.compile`: the energy of a problem;
* `Energy.atWeight`: the energy at a weight, which has to be finite;
* `WeightedEnergy.value`, `WeightedEnergy.gradient`: its value and gradient at a vector of
  variables.
-/

namespace DiagramLayout

/-- The energy of a problem as a node of a graph. -/
structure Energy (α : Type) where
  graph : Graph α
  output : Nat
  count : Nat
  names : List String
  scale : α

/-- An energy at a weight. -/
structure WeightedEnergy (α : Type) where
  energy : Energy α
  weight : α

namespace Energy

/-- The slot of the weight. -/
def weightSlot : String := "ep_weight"

variable {α : Type} [Scalar α]

/-- The factor of every penalty beside the weight, unless another is given. -/
def defaultScale : α := 1e5

/-- The function that turns a constraint into an energy, unless another is given. -/
def defaultPenalty : TermFunction α where
  parameters := [{ name := "c" }]
  body
    | [c] => penalty c
    | _ => .fault .wrongForm

/-- The sum of the objectives and of the penalties, these times the scale and the weight. -/
def combine (scale : α) (objectives penalties : List (Value α)) : Recording α (Value α) := do
  let scaleNode ← Graph.record (.const scale)
  let weightNode ← Graph.recordSlot weightSlot (.number 1.0)
  let objective ← (Formula.total objectives).record
  let penalty ← (Formula.total penalties).record
  let factor ← Graph.operate .mul [.handle scaleNode, weightNode]
  let weighted ← Graph.operate .mul [penalty, factor]
  Graph.lift (← Graph.operate .add [objective, weighted])

/-- The output of an energy, its terms in the order of the problem. -/
def build (objectives constraints : List (ResolvedTerm α)) (scale : α)
    (penalty : TermFunction α) : Recording α Nat := do
  let energies ← objectives.mapM ResolvedTerm.record
  let penalties ← constraints.mapM fun t => do (penalty.call [← t.record]).record
  Recording.node (combine scale energies penalties)

/-- The energy of a problem. -/
def compile (p : Problem α) (library : Library α) (scale : α) (penalty : TermFunction α) :
    Except Fault (Energy α) := do
  require (0 ≤ p.count) .variableCount
  require (Scalar.less 0.0 scale) .constraintScale
  let (objectives, constraints) ← p.resolve library
  let (result, graph) := (build objectives constraints scale penalty).run.run { number := p.nextGraph }
  let output ← result
  return {
    graph, output, scale
    count := p.count.toNat
    names := (p.objectives ++ p.constraints).map Term.text }

/-- What is said of a problem without terms. -/
def emptyWarning : String := "no objectives and no constraints; energy is identically zero"

/-- The energy at a weight. -/
def atWeight (e : Energy α) (weight : α) : Except Fault (WeightedEnergy α) := do
  require (Scalar.isFinite weight) .finiteWeight
  return ⟨e, weight⟩

end Energy

namespace WeightedEnergy

variable {α : Type} [Scalar α]

/-- The point of a graph at which an energy is evaluated. -/
def point (e : WeightedEnergy α) (xs : List α) : Point α :=
  ⟨xs, [(Energy.weightSlot, e.weight)]⟩

/-- The energy at a vector of variables. -/
def value (e : WeightedEnergy α) (xs : List α) : Except Fault α := do
  require (xs.length == e.energy.count) .inputLength
  e.energy.graph.forward (e.point xs) e.energy.output

/-- The gradient at a vector of variables. -/
def gradient (e : WeightedEnergy α) (xs : List α) : Except Fault (List α) := do
  require (xs.length == e.energy.count) .inputLength
  let (_, slopes) ← e.energy.graph.gradient (e.point xs) e.energy.output
  return slopes

end WeightedEnergy

end DiagramLayout

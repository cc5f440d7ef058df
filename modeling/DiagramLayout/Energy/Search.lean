import DiagramLayout.Energy.Compile
import DiagramLayout.LineSearch

namespace DiagramLayout

/-- What may be known at the start of a search. -/
structure Known (α : Type) where
  direction : Option (List α) := none
  value : Option α := none
  gradient : Option (List α) := none

/-- The result that is known, or else the one computed. -/
def Known.orCompute {β : Type} (known : Option β) (compute : Except Fault β) : Except Fault β :=
  match known with
  | some b => .ok b
  | none => compute

variable {α : Type} [Scalar α]

/-- The search from a point. What is not known is computed: the direction, which is against the
gradient, and the value at the point; and, after the constants were checked, the gradient for the
slope. -/
def WeightedEnergy.search (e : WeightedEnergy α) (start : List α) (known : Known α)
    (p : LineSearch.Params α) (limit : Option Int) : Except Fault (LineSearch.Result α) := do
  let direction ← Known.orCompute known.direction ((e.gradient start).map Vec.neg)
  let startValue ← Known.orCompute known.value (e.value start)
  p.check
  let gradient ← Known.orCompute known.gradient (e.gradient start)
  let startSlope ← LineSearch.innerProduct direction gradient
  LineSearch.search
    { start, direction, value := e.value, gradient := e.gradient, startValue, startSlope }
    p (limit.getD p.maxSteps)

end DiagramLayout

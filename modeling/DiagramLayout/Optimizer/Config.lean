import DiagramLayout.Energy.Compile
import DiagramLayout.LineSearch
import DiagramLayout.Lbfgs

namespace DiagramLayout

/-- The settings of the exterior-point method. -/
structure Optimizer (α : Type) where
  library : Library α
  /-- The factor of every penalty beside the weight. -/
  scale : α
  /-- The weight of the first round. -/
  initialWeight : α
  /-- The factor of the weight from round to round. -/
  growth : α
  /-- A phase has converged when the decrement of its energy is below this. -/
  phaseStop : α
  /-- The rounds have converged when the state or the energy changes by less than this. -/
  roundStop : α
  /-- The number of differences that a quasi-Newton memory keeps. -/
  historySize : Int
  lineSearch : LineSearch.Params α
  /-- Whether steps are searched for; otherwise they have the fixed length. -/
  searches : Bool
  fixedStep : α
  /-- Whether a phase ends as soon as it has converged. -/
  breaksEarly : Bool

namespace Optimizer

variable {α : Type} [Scalar α]

/-- The settings used unless others are given. -/
def standard (library : Library α) : Optimizer α where
  library
  scale := Energy.defaultScale
  initialWeight := 1e-2
  growth := 10.0
  phaseStop := 1e-2
  roundStop := 1e-3
  historySize := 17
  lineSearch := LineSearch.Params.standard
  searches := true
  fixedStep := 1e-4
  breaksEarly := true

/-- The conditions on the settings. -/
def check (o : Optimizer α) : Except Fault Unit := do
  require (Scalar.less 0.0 o.scale) .constraintScale
  require (Scalar.less 0.0 o.initialWeight) .initialWeight
  require (Scalar.less 1.0 o.growth) .weightGrowth
  require (Scalar.less 0.0 o.phaseStop) .phaseStop
  require (Scalar.less 0.0 o.roundStop) .roundStop
  require (0 ≤ o.historySize) .historySize
  require (Scalar.less 0.0 o.fixedStep) .fixedStep

end Optimizer

end DiagramLayout

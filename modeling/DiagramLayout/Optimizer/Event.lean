import DiagramLayout.LineSearch
import DiagramLayout.Optimizer.State

namespace DiagramLayout

/-- One iteration of a phase, before its step is taken. -/
structure Iteration (α : Type) where
  round : Int
  phase : Int
  number : Int
  weight : α
  energy : α
  /-- The inner product of the gradient and the direction. -/
  decrement : α
  step : α
  values : List α

/-- A quantity that must stay finite. -/
inductive Quantity where
  | values
  | energy
  | gradient
  | update
deriving DecidableEq, Repr

/-- The words for a quantity. -/
def Quantity.name : Quantity → String
  | values => "varying values"
  | energy => "energy"
  | gradient => "gradient"
  | update => "varying values after update"

/-- Entries of a quantity that are not finite. -/
structure NonFinite where
  quantity : Quantity
  entries : List Nat
deriving DecidableEq, Repr

/-- The wording of a failure: the quantity and the positions of its entries. -/
def NonFinite.message (n : NonFinite) : String :=
  "non-finite " ++ n.quantity.name ++ " (entries [" ++ ", ".intercalate (n.entries.map toString) ++
    "])"

/-- What a run warns of. -/
inductive Warning (α : Type) where
  | emptyProblem
  | noLayout (cause : NonFinite) (round : Nat) (weight : α)

/-- The wording of a warning. -/
def Warning.message {α : Type} [Scalar α] : Warning α → String
  | emptyProblem => Energy.emptyWarning
  | noLayout cause round weight =>
    "could not find a valid layout: " ++ cause.message ++ " (EP round " ++ toString round ++
      ", weight " ++ Scalar.text weight ++ ")"

/-- What observers of a run see. -/
inductive Event (α : Type) where
  | trial (t : LineSearch.Trial α)
  | iteration (i : Iteration α)
  | status (old new : Status)
  | warning (w : Warning α)

/-- The event of a change of status; a status of the same name is no change. -/
def Event.change {α : Type} (old new : Status) : List (Event α) :=
  if old.name = new.name then [] else [.status old new]

end DiagramLayout

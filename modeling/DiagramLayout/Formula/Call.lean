import DiagramLayout.Catalog

namespace DiagramLayout

open Formula

/-- The functions of vectors. -/
inductive VectorFunction where
  | sum
  | add
  | sub
  | scale
  | dot
  | normSquared
  | norm
  | distance
  | normalize
  | quarterTurn
deriving DecidableEq, Repr

/-- The functions that can be called. -/
inductive Function where
  | operation (op : Op)
  /-- The sum of a list. -/
  | total
  | vector (f : VectorFunction)
  | power
  | penalty
  | objective (o : Objective)
  | constraint (c : Constraint)
deriving DecidableEq, Repr

variable {α : Type} [Scalar α]

/-- A call of a vector function. -/
def VectorFunction.call : VectorFunction → List (Value α) → Formula α (Value α)
  | sum, [v] => vectorSum v
  | add, [u, v] => addVectors u v
  | sub, [u, v] => subVectors u v
  | scale, [c, v] => scaleVector c v
  | dot, [u, v] => dotProduct u v
  | normSquared, [v] => Formula.normSquared v
  | norm, [v] => Formula.norm v
  | distance, [u, v] => Formula.distance u v
  | normalize, [v] => Formula.normalize v
  | quarterTurn, [v] => Formula.quarterTurn v
  | _, _ => fault .wrongForm

/-- A call; the wrong number of arguments is refused. -/
def Function.call : Function → List (Value α) → Formula α (Value α)
  | operation op, operands =>
    if op.arity? = some operands.length then apply op operands else fault .wrongForm
  | total, [v] => do Formula.total (← itemsOf v)
  | vector f, arguments => f.call arguments
  | power, [base, exponent] => Formula.power base exponent
  | penalty, [c] => DiagramLayout.penalty c
  | objective o, arguments => o.function.call arguments
  | constraint c, arguments => c.function.call arguments
  | _, _ => fault .wrongForm

/-- A function body. -/
inductive Body (α : Type) where
  | constant (v : Value α)
  | parameter (name : String)
  | list (bs : List (Body α))
  /-- The element at a position; a negative position counts from the end. -/
  | item (b : Body α) (position : Int)
  | call (f : Function) (arguments : List (Body α))

instance : Inhabited (Body α) := ⟨.list []⟩

namespace Body

mutual

/-- The formula of a body, with values for its parameters. Parts are computed from left to right. -/
def formula (values : List (String × Value α)) : Body α → Formula α (Value α)
  | constant v => return v
  | parameter name =>
    match values.lookup name with
    | some v => return v
    | none => fault .wrongForm
  | list bs => do return .list (← formulas values bs)
  | item b position => do ofExcept ((← formula values b).item position)
  | call f arguments => do f.call (← formulas values arguments)

/-- The formulas of several bodies, one after another. -/
def formulas (values : List (String × Value α)) : List (Body α) → Formula α (List (Value α))
  | [] => return []
  | b :: bs => do
    let v ← formula values b
    return v :: (← formulas values bs)

end

/-- A function with these parameters and this body. -/
def toFunction (parameters : List (Parameter α)) (b : Body α) : TermFunction α where
  parameters
  body arguments := b.formula ((parameters.map (·.name)).zip arguments)

end Body

end DiagramLayout

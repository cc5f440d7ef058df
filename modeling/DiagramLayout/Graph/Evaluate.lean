import DiagramLayout.Graph.Basic

namespace DiagramLayout

/-- Where a graph is evaluated. -/
structure Point (α : Type) where
  inputs : List α
  slots : List (String × α) := []

namespace Point

variable {α : Type}

/-- The value of a slot. -/
def slot (p : Point α) (name : String) (default : α) : α := (p.slots.lookup name).getD default

end Point

namespace Node

variable {α : Type} [Scalar α]

/-- The values of operands. -/
def operandValues (values : Array α) (operands : List Nat) : List α :=
  operands.map fun i => values.getD i 0.0

/-- The value of a node; an input that the vector does not have has none. -/
def value? (p : Point α) (values : Array α) : Node α → Option α
  | const x => some x
  | input index => p.inputs[index]?
  | slot name default => some (p.slot name default)
  | apply op operands => some (op.eval (operandValues values operands))

end Node

namespace Graph

variable {α : Type} [Scalar α]

/-- The values of the nodes, the oldest first, and whether there is one for every node. -/
def evaluate (p : Point α) : List (Node α) → Array α × Bool
  | [] => (#[], true)
  | node :: older =>
    match evaluate p older with
    | (values, true) =>
      match node.value? p values with
      | some x => (values.push x, true)
      | none => (values, false)
    | stopped => stopped

/-- The nodes up to a number, the newest first. -/
def upTo (g : Graph α) (out : Nat) : List (Node α) := g.nodes.drop (g.size - (out + 1))

/-- The values of the nodes up to `out`, as far as no input is missing. -/
def valuesUpTo (g : Graph α) (p : Point α) (out : Nat) : Array α := (evaluate p (g.upTo out)).1

/-- The value of a node. -/
def forward (g : Graph α) (p : Point α) (out : Nat) : Except Fault α :=
  match (g.valuesUpTo p out)[out]? with
  | some x => .ok x
  | none => .error (.outOfRange .list)

end Graph

end DiagramLayout

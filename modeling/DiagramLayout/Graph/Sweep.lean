import DiagramLayout.Graph.Evaluate

/-!
# The reverse sweep

The adjoint of a node is the derivative of the output by it. The sweep visits the nodes from the
newest to the oldest and hands each adjoint on to the operands, times the local derivative. A node
whose adjoint is zero, and an operand whose local derivative is zero, are passed over, so an infinite
or undefined value on a branch that was not taken does not spread.
-/

namespace DiagramLayout

variable {α : Type} [Scalar α]

open Scalar

/-- One node's contribution to the adjoints of its operands. -/
def Node.spread (values : Array α) (out adjoint : α) (node : Node α) (adjoints : Array α) :
    Array α :=
  match node with
  | .apply op operands =>
    (operands.zip (op.partials (operandValues values operands) out)).foldl
      (fun adjoints (i, slope) =>
        if same slope 0.0 then adjoints else adjoints.modify i (· + adjoint * slope))
      adjoints
  | _ => adjoints

namespace Graph

/-- The gradient that the adjoints of the nodes lead to. There is one adjoint for each node, the
newest node's last. -/
def sweep (values : Array α) : List (Node α) → Array α → Array α → Except Fault (Array α)
  | [], _, gradient => .ok gradient
  | node :: older, adjoints, gradient =>
    let i := adjoints.size - 1
    let adjoint := adjoints.getD i 0.0
    let rest := adjoints.pop
    if same adjoint 0.0 then sweep values older rest gradient
    else
      match node with
      | .input index =>
        if index < gradient.size then
          sweep values older rest (gradient.modify index (· + adjoint))
        else .error (.outOfRange .list)
      | node => sweep values older (node.spread values (values.getD i 0.0) adjoint rest) gradient

/-- The adjoints before the sweep: one for the output, zero for the older nodes. -/
def seed (out : Nat) : Array α := (Array.replicate out 0.0).push 1.0

/-- The gradient of a node by `count` inputs, from the values of the nodes. -/
def backward (g : Graph α) (values : Array α) (out count : Nat) : Except Fault (List α) := do
  let gradient ← sweep values (g.upTo out) (seed out) (Array.replicate count 0.0)
  return gradient.toList

/-- The value of a node and its gradient. -/
def gradient (g : Graph α) (p : Point α) (out : Nat) : Except Fault (α × List α) :=
  let values := g.valuesUpTo p out
  match values[out]? with
  | some x => (g.backward values out p.inputs.length).map ((x, ·))
  | none => .error (.outOfRange .list)

end Graph

end DiagramLayout

import DiagramLayout.Graph.Op
import DiagramLayout.Value

/-!
# Expression graphs

A graph is the list of its nodes, the newest first. A node stands for a constant, an input, a slot
or an operation on older nodes, which it names by number; numbers count from the oldest node, so a
node keeps its number as the graph grows.

* `Graph.push`, `Graph.input`, `Graph.slot`: the ways to add a node;
* `Graph.WellFormed`: operands are older than their node and as many as the operation takes, and
  no two nodes stand for one input or one slot;
* `Graph.inputCount`, `Graph.slotNames`: what a graph depends on.
-/

namespace DiagramLayout

/-- A node; operands are numbers of older nodes. -/
inductive Node (α : Type) where
  | const (x : α)
  /-- An entry of the input vector. -/
  | input (index : Nat)
  /-- A named number that each evaluation can replace, and its value where it does not. -/
  | slot (name : String) (default : α)
  | apply (op : Op) (operands : List Nat)

/-- A numbered graph; `nodes` has the newest node first. -/
structure Graph (α : Type) where
  number : Nat := 0
  nodes : List (Node α) := []

namespace Node

variable {α : Type}

/-- The word for a node in the listing of a graph. -/
def label : Node α → String
  | const _ => "CONST"
  | input _ => "INPUT"
  | slot .. => "SLOT"
  | apply op _ => op.label

/-- The numbers of a node's operands. -/
def operands : Node α → List Nat
  | apply _ operands => operands
  | _ => []

/-- The input that a node stands for. -/
def input? : Node α → Option Nat
  | input index => some index
  | _ => none

/-- The slot that a node stands for. -/
def slot? : Node α → Option String
  | slot name _ => some name
  | _ => none

/-- The number of the newest node with a property in a list with the newest node first. -/
def find? (p : Node α → Bool) : List (Node α) → Option Nat
  | [] => none
  | node :: older => if p node then some older.length else find? p older

/-- A node that is found has the property, and its number is that of its place. -/
theorem find?_eq_some {p : Node α → Bool} {nodes : List (Node α)} {i : Nat}
    (h : find? p nodes = some i) :
    ∃ node older, node :: older <:+ nodes ∧ p node = true ∧ older.length = i := by
  induction nodes with
  | nil => simp [find?] at h
  | cons node older ih =>
    unfold find? at h
    split at h
    · next hp => exact ⟨node, older, List.suffix_refl _, hp, Option.some.inj h⟩
    · obtain ⟨node', older', hs, hp, hi⟩ := ih h
      exact ⟨node', older', hs.trans (List.suffix_cons node older), hp, hi⟩

/-- A node fits on top of older nodes. -/
def Fits (older : List (Node α)) : Node α → Prop
  | const _ => True
  | input index => ∀ node ∈ older, node.input? ≠ some index
  | slot name _ => ∀ node ∈ older, node.slot? ≠ some name
  | apply op operands =>
    (∀ i ∈ operands, i < older.length) ∧
      match op.arity? with
      | some n => operands.length = n
      | none => 2 ≤ operands.length

end Node

namespace Graph

variable {α : Type}

/-- The number of nodes. -/
def size (g : Graph α) : Nat := g.nodes.length

/-- The node with a number. -/
def node? (g : Graph α) (i : Nat) : Option (Node α) :=
  if i < g.size then g.nodes[g.size - 1 - i]? else none

/-- Every node fits on top of the nodes older than it. -/
def WellFormed (g : Graph α) : Prop :=
  ∀ node older, node :: older <:+ g.nodes → node.Fits older

/-- The handle of the node with a number. -/
def handle (g : Graph α) (i : Nat) : Handle := ⟨g.number, i⟩

/-- A new node and its handle. -/
def push (g : Graph α) (node : Node α) : Handle × Graph α :=
  (g.handle g.size, { g with nodes := node :: g.nodes })

@[simp] theorem size_push (g : Graph α) (node : Node α) : (g.push node).2.size = g.size + 1 := rfl

/-- A new node keeps a graph well formed if it fits. -/
theorem wellFormed_push {g : Graph α} (h : g.WellFormed) {node : Node α} (fits : node.Fits g.nodes) :
    (g.push node).2.WellFormed := by
  intro node' older hs
  rcases List.suffix_cons_iff.mp hs with heq | hs
  · obtain ⟨rfl, rfl⟩ := List.cons.inj heq
    exact fits
  · exact h node' older hs

/-- The node of an input, added if there is none. -/
def input (g : Graph α) (index : Nat) : Handle × Graph α :=
  match Node.find? (·.input? == some index) g.nodes with
  | some i => (g.handle i, g)
  | none => g.push (.input index)

/-- The node of a slot, added if there is none. -/
def slot (g : Graph α) (name : String) (default : α) : Handle × Graph α :=
  match Node.find? (·.slot? == some name) g.nodes with
  | some i => (g.handle i, g)
  | none => g.push (.slot name default)

/-- One more than the greatest input that a node stands for, or zero. -/
def inputCount (g : Graph α) : Nat :=
  (g.nodes.filterMap Node.input?).foldl (fun n i => max n (i + 1)) 0

/-- The names of the slots, the oldest first. -/
def slotNames (g : Graph α) : List String := (g.nodes.filterMap Node.slot?).reverse

/-- The text of a handle. -/
def describe (g : Graph α) (i : Nat) : String :=
  "Var(" ++ ((g.node? i).map Node.label).getD "" ++ ", #" ++ toString i ++ ")"

end Graph

end DiagramLayout

import DiagramLayout.Graph.Basic

/-!
# Recording values on a graph

A recording reads and extends one graph; what it added before a fault stays.
-/

namespace DiagramLayout

/-- A computation that extends a graph and may fail; the graph outlives a fault. -/
abbrev Recording (α : Type) : Type → Type := ExceptT Fault (StateM (Graph α))

/-- What a computation that needs no graph gives, as a recording. -/
def Recording.ofExcept {α β : Type} (r : Except Fault β) : Recording α β := ExceptT.mk (pure r)

namespace Graph

variable {α : Type}

/-- A new node as a recording. -/
def record (node : Node α) : Recording α Handle :=
  ExceptT.mk fun g => let (h, g') := g.push node; (.ok h, g')

/-- The node of an input; negative positions are refused. -/
def recordInput (index : Int) : Recording α (Value α) :=
  ExceptT.mk fun g =>
    if index < 0 then (.error (.violated .inputIndex), g)
    else let (h, g') := g.input index.toNat; (.ok (.handle h), g')

/-- A handle of this graph; one of another graph is refused. -/
def own (h : Handle) : Recording α Handle :=
  ExceptT.mk fun g =>
    if h.graph = g.number then (.ok h, g) else (.error (.violated .ownHandle), g)

variable [Scalar α]

/-- A constant node. -/
def recordConst (v : Value α) : Recording α (Value α) := do
  let x ← Recording.ofExcept v.toNumber
  return .handle (← record (.const x))

/-- The node of a slot; the value of the default is not read when the slot is there. -/
def recordSlot (name : String) (default : Value α) : Recording α (Value α) :=
  ExceptT.mk fun g =>
    match Node.find? (·.slot? == some name) g.nodes with
    | some i => (.ok (.handle (g.handle i)), g)
    | none =>
      match default.toNumber with
      | .ok x => let (h, g') := g.slot name x; (.ok (.handle h), g')
      | .error e => (.error e, g)

mutual

/-- A value with handles in place of its numbers, lists keeping their form. -/
def lift : Value α → Recording α (Value α)
  | .handle h => do return .handle (← own h)
  | .list vs => do return .list (← liftAll vs)
  | .number x => do return .handle (← record (.const x))
  | .integer n => recordConst (.integer n)
  | .truth b => recordConst (.truth b)
  | v => throw (.cannotLift v.form)

/-- Values lifted from left to right. -/
def liftAll : List (Value α) → Recording α (List (Value α))
  | [] => return []
  | v :: vs => do
    let w ← lift v
    return w :: (← liftAll vs)

end

/-- The node numbers of lifted operands; a list is no operand. -/
def nodeNumbers (vs : List (Value α)) : Except Fault (List Nat) :=
  vs.mapM fun
    | .handle h => .ok h.node
    | _ => .error .wrongForm

/-- The node of an operation. All operands are lifted before one is found to be a list. -/
def recordOperation (op : Op) (operands : List (Value α)) : Recording α (Value α) := do
  let lifted ← liftAll operands
  let numbers ← Recording.ofExcept (nodeNumbers lifted)
  return .handle (← record (.apply op numbers))

end Graph

/-- An operation on numbers, each operand read from left to right. -/
def Op.onNumbers {α : Type} [Scalar α] (op : Op) (operands : List (Value α)) :
    Except Fault (Value α) := do
  let xs ← operands.mapM Value.toNumber
  return .number (op.eval xs)

/-- An operation on values: a node when an operand is a handle, else a number. -/
def Graph.operate {α : Type} [Scalar α] (op : Op) (operands : List (Value α)) :
    Recording α (Value α) :=
  if operands.any (·.graph?.isSome) then recordOperation op operands
  else Recording.ofExcept (op.onNumbers operands)

end DiagramLayout

import DiagramLayout.Proofs.Formula.Composed
import DiagramLayout.Proofs.Graph.Recorded

namespace DiagramLayout

variable {α : Type} [Scalar α]

/-- One step of building a graph. -/
inductive Construction (α : Type) where
  | constant (v : Value α)
  | input (index : Int)
  | slot (name : String) (default : Value α)
  | lift (v : Value α)
  | operation (op : Op) (operands : List (Value α))
  | call (f : Function) (arguments : List (Value α))
  | bind (arguments : List (Value α))
  /-- A call of a function with a body of its own. -/
  | term (f : TermFunction α) (arguments : List (Value α))

namespace Construction

/-- The recording of a step. -/
def record : Construction α → Recording α (Value α)
  | constant v => Graph.recordConst v
  | input index => Graph.recordInput index
  | slot name default => Graph.recordSlot name default
  | lift v => Graph.lift v
  | operation op operands => Graph.recordOperation op operands
  | call f arguments => (f.call arguments).record
  | bind arguments => do return .list (← Graph.bindArguments arguments)
  | term f arguments => (f.call arguments).record

/-- A step that names only nodes that are there, and operations with as many operands as they
take. -/
def Known (g : Graph α) : Construction α → Prop
  | constant _ | input _ | slot .. => True
  | lift v => v.Known g
  | operation op operands => op.Takes operands.length ∧ Value.AllKnown g operands
  | call _ arguments | bind arguments => Value.AllKnown g arguments
  | term f arguments => (f.Composed fun _ => true) ∧ Value.AllKnown g arguments

/-- The inputs that a step can add. -/
def inputs : Construction α → List Int
  | input index => [index]
  | bind arguments => Value.indicesOfAll arguments
  | _ => []

/-- A step keeps a graph sound and only adds to it, and its result names nodes that are there. -/
theorem keeps {allowed : Nat → Prop} {g : Graph α} (sound : g.Sound allowed)
    (c : Construction α) (known : c.Known g)
    (hinputs : ∀ i ∈ c.inputs, 0 ≤ i → allowed i.toNat) :
    c.record.Keeps allowed g Value.Known := by
  have hcall {m n : Formula α (Value α)}
      (agrees : Formula.Agrees .handle (Value.Agrees .handle) g.Knows m n) :
      m.record.Keeps allowed g Value.Known := by
    refine (Formula.record_keeps agrees sound).mono ?_
    rintro _ _ ⟨_, h⟩
    exact h.eq_of_knows ▸ h
  cases c with
  | constant v =>
    refine (Graph.recordConst_keeps sound v).mono ?_
    rintro _ _ ⟨_, _, rfl, _, names⟩
    exact names.known
  | input index =>
    refine (Graph.recordInput_keeps sound (hinputs index List.mem_cons_self)).mono ?_
    rintro _ _ ⟨_, _, rfl, names⟩
    exact names.known
  | slot name default =>
    refine (Graph.recordSlot_keeps sound name default).mono ?_
    rintro _ _ ⟨_, _, rfl, names⟩
    exact names.known
  | lift v => exact (Graph.lift_keeps sound known).mono fun _ _ h => h.known
  | operation op operands =>
    exact (Graph.recordOperation_keeps sound known.1 known.2).mono fun _ _ h => h.known
  | call f arguments =>
    exact hcall (Function.call_agrees (k := .handle) f (fun h => by cases h) known)
  | bind arguments =>
    exact (Graph.bindArguments_keeps sound hinputs known).bind fun _ _ sound' _ h =>
      .pure sound' (.list (Graph.Bound.knowns h))
  | term f arguments =>
    exact hcall (TermFunction.Composed.call_agrees (k := .handle) known.1 (fun h => by cases h)
      known.2)

end Construction

/-- The graphs that steps lead to from an empty one, also by steps that fail half way. -/
inductive Graph.Built : Graph α → Prop where
  | empty (number : Nat) : Built { number }
  | step {g : Graph α} (c : Construction α) : Built g → c.Known g → Built (c.record.on g).2

theorem Graph.Built.sound {g : Graph α} (built : g.Built) : g.Sound fun _ => True := by
  induction built with
  | empty number => exact sound_empty _ number
  | step c _ known ih => exact (c.keeps ih known fun _ _ _ => trivial).sound

/-- In every built graph operands are older than their node. -/
theorem Graph.Built.ordered {g : Graph α} (built : g.Built) : g.Ordered :=
  built.sound.wellFormed.ordered

end DiagramLayout

import DiagramLayout.Vec
import DiagramLayout.Fault

/-!
# Limited-memory quasi-Newton directions

The inverse Hessian is estimated from the last differences of states and of gradients, without ever
being formed.

* `Lbfgs.twoLoop`: the estimate applied to a gradient;
* `Lbfgs.Memory`: the differences kept, the newest first, with the last state and gradient;
* `Lbfgs.Memory.precondition`: the direction at a state, and the memory after it.
-/

namespace DiagramLayout

namespace Lbfgs

variable {α : Type} [Scalar α]

/-- A difference of states and the difference of gradients that goes with it. -/
structure Pair (α : Type) where
  s : List α
  y : List α

/-- What is added to the divisors of the recursion. -/
def offset : α := 1e-11

/-- The curvature along a pair, moved off zero. -/
def Pair.curvature (p : Pair α) : α := Vec.dot p.y p.s + offset

/-- The reciprocal curvature of a pair. -/
def Pair.rho (p : Pair α) : α := 1.0 / p.curvature

/-- What keeps a pair from having a reciprocal curvature. -/
def Pair.fault? (p : Pair α) : Option Fault :=
  if p.y.length ≠ p.s.length then some .badShape
  else if Scalar.same p.curvature 0.0 then some .zeroDivisor
  else none

/-- The recursion over the pairs, the newest first: on the way in each pair takes its part off the
vector, in the middle the vector is scaled, and on the way out each pair adds its part. -/
def recursion (gamma : α) : List (Pair α) → List α → List α
  | [], q => Vec.scale gamma q
  | p :: older, q =>
    let a := p.rho * Vec.dot p.s q
    let r := recursion gamma older (Vec.sub q (Vec.scale a p.y))
    let b := p.rho * Vec.dot p.y r
    Vec.add r (Vec.scale (a - b) p.s)

/-- The scale of the estimate before the pairs, from the newest pair. -/
def Pair.gamma (p : Pair α) : α := Vec.dot p.s p.y / (Vec.dot p.y p.y + offset)

/-- The estimate of the inverse Hessian applied to a vector; without pairs it is the identity. -/
def apply (pairs : List (Pair α)) (g : List α) : List α :=
  match pairs with
  | [] => g
  | newest :: _ => recursion newest.gamma pairs g

/-- Every vector of every pair has `n` entries. -/
def fits (n : Nat) (pairs : List (Pair α)) : Bool :=
  pairs.all fun p => p.s.length == n && p.y.length == n

/-- The estimate applied to a vector. Every pair must have a reciprocal curvature, and then the length
of the vector must be that of the pairs. -/
def twoLoop (pairs : List (Pair α)) (g : List α) : Except Fault (List α) :=
  match pairs.findSome? Pair.fault? with
  | some cause => .error cause
  | none => if fits g.length pairs then .ok (apply pairs g) else .error .badShape

/-- Differences of states and of gradients put side by side; a state without gradient at the front is
refused, and what one list has more is left out. -/
def pairUp : List (List α) → List (List α) → Except Fault (List (Pair α))
  | [], _ => .ok []
  | _ :: _, [] => .error (.outOfRange .list)
  | ss, ys => .ok (ss.zipWith Pair.mk ys)

/-- The differences kept, the newest first, with the last state and gradient seen. -/
structure Memory (α : Type) where
  capacity : Nat := 17
  lastState : Option (List α) := none
  lastGradient : Option (List α) := none
  pairs : List (Pair α) := []
  steps : Int := 0

namespace Memory

/-- A memory with these contents: as many differences of states as of gradients, and not more than
the capacity. -/
def make (capacity : Int) (lastState lastGradient : Option (List α)) (ss ys : List (List α))
    (steps : Int) : Except Fault (Memory α) := do
  require (0 ≤ capacity) .memorySize
  require (ss.length == ys.length) .pairCount
  require ((ss.length : Int) ≤ capacity) .pairsWithinMemory
  return ⟨capacity.toNat, lastState, lastGradient, ss.zipWith Pair.mk ys, steps⟩

/-- An empty memory. -/
def fresh (capacity : Int) : Except Fault (Memory α) := make capacity none none [] [] 0

/-- An empty memory of the same capacity. -/
def reset (m : Memory α) : Memory α := { capacity := m.capacity }

/-- A memory of the same capacity with other contents. -/
def renew (m : Memory α) (x g : List α) (pairs : List (Pair α)) (steps : Int) :
    Except Fault (Memory α) :=
  make m.capacity (some x) (some g) (pairs.map Pair.s) (pairs.map Pair.y) steps

/-- The memory of a phase whose first state this is. -/
def restart (m : Memory α) (x g : List α) : Except Fault (Memory α) := m.renew x g [] 1

/-- A difference of vectors whose lengths fit. -/
def difference (u v : List α) : Except Fault (List α) :=
  match Vec.pairwise? (· - ·) u v with
  | some w => .ok w
  | none => .error .badShape

/-- The direction at a state with a gradient, and the memory after it. The first state of a phase
gives the gradient itself, and so does an estimate that does not descend, which empties the
memory. -/
def precondition (m : Memory α) (x g : List α) : Except Fault (List α × Memory α) := do
  require (x.length == g.length) .gradientShape
  if m.steps = 0 then return (g, ← m.restart x g)
  match m.lastState, m.lastGradient with
  | some x', some g' =>
    let s ← difference x x'
    let y ← difference g g'
    let pairs := (⟨s, y⟩ :: m.pairs).take m.capacity
    let r ← twoLoop pairs g
    if Scalar.less (-Vec.dot r g) 0.0 then return (r, ← m.renew x g pairs (m.steps + 1))
    else return (g, ← m.restart x g)
  | _, _ => throw (.violated .memoryComplete)

end Memory

end Lbfgs

/-- What gives the direction at a state with a gradient, and the memory after it. -/
abbrev Preconditioner (α : Type) :=
  Lbfgs.Memory α → List α → List α → Except Fault (List α × Lbfgs.Memory α)

/-- The estimate of the memory. -/
def Preconditioner.ofMemory {α : Type} [Scalar α] : Preconditioner α := Lbfgs.Memory.precondition

end DiagramLayout

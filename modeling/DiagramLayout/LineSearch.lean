import DiagramLayout.Vec
import DiagramLayout.Fault

/-!
# Bracketing line search

The search keeps a bracket of step lengths, at first from zero to infinity, and a trial in it. A trial
without sufficient decrease becomes the upper end, and one that decreases but is still too steep the
lower end; the next trial is the midpoint of a finite bracket or twice the lower end. The search ends
with a trial that passes both tests, with a bracket that has collapsed, or when its trials are used
up, so its step may fail either test.
-/

namespace DiagramLayout.LineSearch

variable {α : Type}

/-- The constants of the search. -/
structure Params (α : Type) where
  /-- The share of the first-order decrease that a step has to reach. -/
  decrease : α
  /-- The share of the slope that may be left after a step. -/
  curvature : α
  /-- A bracket narrower than this has collapsed. -/
  minInterval : α
  /-- The number of the last trial. -/
  maxSteps : Int
  /-- The first trial. -/
  initialStep : α

/-- One trial: its number, the bracket before it, the step and the outcome of the two tests. Without
an upper end the bracket is infinite. -/
structure Trial (α : Type) where
  number : Int
  lower : α
  upper : Option α
  step : α
  decreases : Bool
  flattens : Bool

/-- The end of a search. -/
structure Result (α : Type) where
  step : α
  trials : List (Trial α)

/-- The line that is searched: the functions along it are given with the value and the slope at its
start. -/
structure Line (α : Type) where
  start : List α
  direction : List α
  value : List α → Except Fault α
  gradient : List α → Except Fault (List α)
  startValue : α
  startSlope : α

variable [Scalar α]

open Scalar

namespace Params

/-- The constants used unless others are given. -/
def standard : Params α where
  decrease := 0.001
  curvature := 0.9
  minInterval := 1e-10
  maxSteps := 10
  initialStep := 1.0

/-- The conditions on the constants. -/
def check (p : Params α) : Except Fault Unit := do
  require (less 0.0 p.decrease && less p.decrease p.curvature && less p.curvature 1.0)
    .searchConstants
  require (less 0.0 p.minInterval) .searchInterval
  require (0 ≤ p.maxSteps) .searchLimit
  require (less 0.0 p.initialStep) .searchStart

end Params

/-- An inner product of vectors of one length. -/
def innerProduct (u v : List α) : Except Fault α :=
  match Vec.dot? u v with
  | some x => .ok x
  | none => .error .badShape

namespace Line

/-- The point a step along the line. -/
def point (l : Line α) (t : α) : Except Fault (List α) :=
  match Vec.pairwise? (· + ·) l.start (Vec.scale t l.direction) with
  | some xs => .ok xs
  | none => .error .badShape

/-- Whether a step decreases the value sufficiently. -/
def decreases (l : Line α) (p : Params α) (t : α) : Except Fault Bool := do
  let y ← l.value (← l.point t)
  return atMost y (l.startValue + p.decrease * t * l.startSlope)

/-- Whether a step leaves the line flat enough. -/
def flattens (l : Line α) (p : Params α) (t : α) : Except Fault Bool := do
  let slope ← innerProduct l.direction (← l.gradient (← l.point t))
  return atMost (p.curvature * l.startSlope) slope

end Line

/-- Whether a bracket has collapsed. -/
def collapsed (p : Params α) (lower : α) : Option α → Bool
  | some upper => less (Scalar.abs (upper - lower)) p.minInterval
  | none => false

/-- The next trial in a bracket. -/
def nextStep (lower : α) : Option α → α
  | some upper => (lower + upper) / 2.0
  | none => 2.0 * lower

/-- The search from a bracket and a trial; `left` trials may still be made. The second test is made
only of a step that passes the first. -/
def resume (l : Line α) (p : Params α) :
    (left : Nat) → (number : Nat) → (lower : α) → (upper : Option α) → (step : α) →
      Except Fault (Result α)
  | 0, _, _, _, step => .ok ⟨step, []⟩
  | left + 1, number, lower, upper, step =>
    if collapsed p lower upper then .ok ⟨step, []⟩
    else do
      let decreases ← l.decreases p step
      let flattens ← if decreases then l.flattens p step else pure false
      let trial : Trial α := { number, lower, upper, step, decreases, flattens }
      if flattens then return ⟨step, [trial]⟩
      let lower' := if decreases then step else lower
      let upper' := if decreases then upper else if isFinite step then some step else none
      let rest ← resume l p left (number + 1) lower' upper' (nextStep lower' upper')
      return ⟨rest.step, trial :: rest.trials⟩

/-- The search along a line. -/
def search (l : Line α) (p : Params α) (limit : Int) : Except Fault (Result α) :=
  resume l p (limit + 1).toNat 0 0.0 none p.initialStep

end DiagramLayout.LineSearch

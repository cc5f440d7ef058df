import DiagramLayout.Formula.Vector
import DiagramLayout.Formula.Function

/-!
# The catalog of layout terms

Points are vectors of the plane, and a circle is a point and a radius.
-/

namespace DiagramLayout

open Formula

variable {α : Type} [Scalar α]

/-- A parameter without a default. -/
private def needed (name : String) : Parameter α := { name }

/-- A parameter with a number as its default. -/
private def optional (name : String) (x : α) : Parameter α := { name, default := some (.number x) }

/-- The one-sided penalty `max(c, 0)²` of a constraint. -/
def penalty (c : Value α) : Formula α (Value α) := do
  apply .square [← apply .max [c, .number 0.0]]

/-- The energies of the catalog. -/
inductive Objective where
  /-- The squared difference of two numbers. -/
  | equal
  | minimal
  | maximal
  /-- The squared distance of two points and an offset. -/
  | near
  | sameCenter
  /-- The inverse squared distance of two points. -/
  | repel
deriving DecidableEq, Repr

namespace Objective

/-- The objectives in the order of the catalog. -/
def all : List Objective := [equal, minimal, maximal, near, sameCenter, repel]

/-- The name of an objective in a term. -/
def name : Objective → String
  | equal => "equal"
  | minimal => "minimal"
  | maximal => "maximal"
  | near => "near"
  | sameCenter => "sameCenter"
  | repel => "repel"

/-- The squared distance of two points. -/
private def distanceSquared (p q : Value α) : Formula α (Value α) := do
  normSquared (← subVectors p q)

/-- The formula of an objective. -/
def function : Objective → TermFunction α
  | equal => ⟨[needed "a", needed "b"], fun
    | [a, b] => do apply .square [← apply .sub [a, b]]
    | _ => fault .wrongForm⟩
  | minimal => ⟨[needed "x"], fun
    | [x] => return x
    | _ => fault .wrongForm⟩
  | maximal => ⟨[needed "x"], fun
    | [x] => apply .neg [x]
    | _ => fault .wrongForm⟩
  | near => ⟨[needed "p", needed "q", optional "offset" 0.0], fun
    | [p, q, offset] => do apply .add [← distanceSquared p q, offset]
    | _ => fault .wrongForm⟩
  | sameCenter => ⟨[needed "c1", needed "c2"], fun
    | [c1, c2] => distanceSquared c1 c2
    | _ => fault .wrongForm⟩
  | repel => ⟨[needed "p", needed "q", optional "weight" 1.0], fun
    | [p, q, weight] => do
      apply .div [weight, ← apply .add [← distanceSquared p q, .number Op.floor]]
    | _ => fault .wrongForm⟩

end Objective

/-- The constraints of the catalog. -/
inductive Constraint where
  | equal
  /-- The first number and a padding are at most the second number. -/
  | lessThan
  /-- The first number is at least the second and a padding. -/
  | greaterThan
  /-- The first circle holds the second, with a padding between them. -/
  | contains
  /-- Two circles are apart, with a padding between them. -/
  | disjoint
  | atDist
deriving DecidableEq, Repr

namespace Constraint

/-- The constraints in the order of the catalog. -/
def all : List Constraint := [equal, lessThan, greaterThan, contains, disjoint, atDist]

/-- The name of a constraint in a term. -/
def name : Constraint → String
  | equal => "equal"
  | lessThan => "lessThan"
  | greaterThan => "greaterThan"
  | contains => "contains"
  | disjoint => "disjoint"
  | atDist => "atDist"

/-- The formula of a constraint. -/
def function : Constraint → TermFunction α
  | equal => ⟨[needed "a", needed "b"], fun
    | [a, b] => do apply .abs [← apply .sub [a, b]]
    | _ => fault .wrongForm⟩
  | lessThan => ⟨[needed "a", needed "b", optional "padding" 0.0], fun
    | [a, b, padding] => do apply .add [← apply .sub [a, b], padding]
    | _ => fault .wrongForm⟩
  | greaterThan => ⟨[needed "a", needed "b", optional "padding" 0.0], fun
    | [a, b, padding] => do apply .add [← apply .sub [b, a], padding]
    | _ => fault .wrongForm⟩
  | contains => ⟨[needed "big_center", needed "big_radius", needed "small_center",
      needed "small_radius", optional "padding" 0.0], fun
    | [center, radius, innerCenter, innerRadius, padding] => do
      let reach ← apply .add [← distance center innerCenter, innerRadius]
      apply .add [← apply .sub [reach, radius], padding]
    | _ => fault .wrongForm⟩
  | disjoint => ⟨[needed "c1", needed "r1", needed "c2", needed "r2", optional "padding" 0.0], fun
    | [c1, r1, c2, r2, padding] => do
      let reach ← apply .add [r1, r2]
      apply .add [← apply .sub [reach, ← distance c1 c2], padding]
    | _ => fault .wrongForm⟩
  | atDist => ⟨[needed "p", needed "q", needed "distance"], fun
    | [p, q, length] => do
      apply .abs [← apply .sub [← distance p q, length]]
    | _ => fault .wrongForm⟩

end Constraint

/-- The dictionary of the catalog's objectives. -/
def Catalog.objectives : Dictionary α := Objective.all.map fun o => (o.name, o.function)

/-- The dictionary of the catalog's constraints. -/
def Catalog.constraints : Dictionary α := Constraint.all.map fun c => (c.name, c.function)

end DiagramLayout

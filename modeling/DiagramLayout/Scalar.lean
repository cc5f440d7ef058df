/-!
# Scalars

The numbers that energies are written in. All of the layout theory is stated over `Scalar`, so it
can be read over the doubles that programs compute with and over exact fields alike.
-/

namespace DiagramLayout

/-- An arithmetic with the elementary functions of a layout energy. The comparisons are the
arithmetic's own: `same` may fail on equal terms, as on NaN. -/
class Scalar (α : Type) extends Add α, Sub α, Mul α, Div α, Neg α, OfScientific α where
  /-- Whether the first number is less than the second. -/
  less : α → α → Bool
  /-- Whether the first number is at most the second. -/
  atMost : α → α → Bool
  /-- Whether two numbers are equal. -/
  same : α → α → Bool
  sqrt : α → α
  abs : α → α
  exp : α → α
  log : α → α
  sin : α → α
  cos : α → α
  /-- Whether a number is neither infinite nor NaN. -/
  isFinite : α → Bool
  /-- The number nearest to an integer, unless it is too large. -/
  ofInt? : Int → Option α
  /-- The number that a text holds. -/
  ofText? : String → Option α
  /-- A short text of a number, as it stands in names. -/
  text : α → String

namespace Scalar

variable {α : Type} [Scalar α]

/-- The greater of two numbers; of equal ones the second. -/
def maximum (a b : α) : α :=
  if same a a then (if less b a then a else b) else a

/-- The lesser of two numbers; of equal ones the second. -/
def minimum (a b : α) : α :=
  if same a a then (if less a b then a else b) else a

/-- One, zero or minus one. -/
def sign (a : α) : α :=
  if same a a then
    (if less 0.0 a then 1.0 else if less a 0.0 then -1.0 else 0.0)
  else a

end Scalar

end DiagramLayout

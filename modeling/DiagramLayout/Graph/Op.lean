import DiagramLayout.Scalar

namespace DiagramLayout

/-- The elementary operations. -/
inductive Op where
  | add
  /-- The sum of any number of operands. -/
  | sum
  | sub
  | mul
  | div
  | neg
  | square
  | sqrt
  | abs
  | max
  | min
  | exp
  | log
  | sin
  | cos
  /-- One if the first operand is less than the second, else zero. -/
  | less
  /-- The second operand if the first is not zero, else the third. -/
  | choose
deriving DecidableEq, Repr

namespace Op

/-- The word for an operation in the listing of a graph. -/
def label : Op → String
  | add => "ADD"
  | sum => "SUM"
  | sub => "SUB"
  | mul => "MUL"
  | div => "DIV"
  | neg => "NEG"
  | square => "SQUARED"
  | sqrt => "SQRT"
  | abs => "ABS"
  | max => "MAX"
  | min => "MIN"
  | exp => "EXP"
  | log => "LOG"
  | sin => "SIN"
  | cos => "COS"
  | less => "LT"
  | choose => "IF"

/-- The number of operands; a sum takes any. -/
def arity? : Op → Option Nat
  | sum => none
  | neg | square | sqrt | abs | exp | log | sin | cos => some 1
  | add | sub | mul | div | max | min | less => some 2
  | choose => some 3

variable {α : Type} [Scalar α]

open Scalar

/-- Below this bound the square root's value is replaced in its derivative, which keeps a length
differentiable at the zero vector; it also keeps the divisor of a unit vector positive. -/
def floor : α := 1e-5

/-- The value of an operation on the values of its operands. -/
def eval : Op → List α → α
  | add, [a, b] => a + b
  | sum, xs => xs.foldl (· + ·) 0.0
  | sub, [a, b] => a - b
  | mul, [a, b] => a * b
  | div, [a, b] => a / b
  | neg, [a] => -a
  | square, [a] => a * a
  | sqrt, [a] => Scalar.sqrt a
  | abs, [a] => Scalar.abs a
  | max, [a, b] => maximum a b
  | min, [a, b] => minimum a b
  | exp, [a] => Scalar.exp a
  | log, [a] => Scalar.log a
  | sin, [a] => Scalar.sin a
  | cos, [a] => Scalar.cos a
  | less, [a, b] => if Scalar.less a b then 1.0 else 0.0
  | choose, [c, a, b] => if same c 0.0 then b else a
  | _, _ => 0.0

/-- The derivative of an operation by each operand, given the operands' values and its own. Where
two operands of a maximum or minimum are equal the second carries the derivative. -/
def partials : Op → List α → α → List α
  | add, _, _ => [1.0, 1.0]
  | sum, xs, _ => xs.map fun _ => 1.0
  | sub, _, _ => [1.0, -1.0]
  | mul, [a, b], _ => [b, a]
  | div, [a, b], _ => [1.0 / b, -a / (b * b)]
  | neg, _, _ => [-1.0]
  | square, [a], _ => [2.0 * a]
  | sqrt, _, out => [0.5 / maximum out floor]
  | abs, [a], _ => [sign a]
  | max, [a, b], _ => if Scalar.less b a then [1.0, 0.0] else [0.0, 1.0]
  | min, [a, b], _ => if Scalar.less a b then [1.0, 0.0] else [0.0, 1.0]
  | exp, _, out => [out]
  | log, [a], _ => [1.0 / a]
  | sin, [a], _ => [Scalar.cos a]
  | cos, [a], _ => [-Scalar.sin a]
  | less, _, _ => [0.0, 0.0]
  | choose, [c, _, _], _ => if same c 0.0 then [0.0, 0.0, 1.0] else [0.0, 1.0, 0.0]
  | _, _, _ => []

end Op

end DiagramLayout

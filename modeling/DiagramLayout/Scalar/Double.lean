import DiagramLayout.Scalar
import DiagramLayout.Decimal.Format
import DiagramLayout.Decimal.Reading

/-!
# The doubles as scalars

Every operation is the one of the floating-point unit. In names a double has six significant
digits.
-/

namespace DiagramLayout

instance : Scalar Float where
  less a b := decide (a < b)
  atMost a b := decide (a ≤ b)
  same a b := a == b
  sqrt := Float.sqrt
  abs := Float.abs
  exp := Float.exp
  log := Float.log
  sin := Float.sin
  cos := Float.cos
  isFinite := Float.isFinite
  ofInt? := Decimal.integerFloat?
  ofText? := Decimal.readFloat?
  text := Decimal.Format.general.render

end DiagramLayout

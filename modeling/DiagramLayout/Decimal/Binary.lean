namespace DiagramLayout.Decimal

/-- The number `± mantissa · 2 ^ exponent`. -/
structure Binary where
  negative : Bool
  mantissa : Nat
  exponent : Int
  /-- The neighbour below is half as far away as the neighbour above. -/
  narrowBelow : Bool := false

/-- The exact value of a double; infinities and NaN have none. -/
def Binary.ofFloat? (x : Float) : Option Binary :=
  let bits := x.toBits.toNat
  let biased : Nat := bits / Nat.pow 2 52 % Nat.pow 2 11
  let fraction : Nat := bits % Nat.pow 2 52
  let negative := bits / Nat.pow 2 63 == 1
  if biased = 2047 then none
  else if biased = 0 then some ⟨negative, fraction, -1074, false⟩
  else some ⟨negative, Nat.pow 2 52 + fraction, (biased : Int) - 1075, fraction == 0 && 1 < biased⟩

/-- The absolute value of `mantissa · 2 ^ exponent` as numerator and denominator. -/
def Binary.ratio (b : Binary) : Nat × Nat :=
  (b.mantissa * Nat.pow 2 b.exponent.toNat, Nat.pow 2 (-b.exponent).toNat)

/-- A double without its fraction; infinities and NaN have no whole part. -/
def truncate? (x : Float) : Option Int :=
  (Binary.ofFloat? x).map fun b =>
    let (num, den) := b.ratio
    if b.negative then -((num / den : Nat) : Int) else ((num / den : Nat) : Int)

example : truncate? (-2.75) = some (-2) := by decide +kernel
example : truncate? 1e3 = some 1000 := by decide +kernel

end DiagramLayout.Decimal

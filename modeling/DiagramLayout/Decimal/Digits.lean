import DiagramLayout.Decimal.Binary

/-!
# Decimal digits of a double

Digits are selected in exact natural arithmetic on the binary fraction of a double, so an exact half
is known for one.
-/

namespace DiagramLayout.Decimal

/-- The number `digits · 10 ^ exponent`. -/
structure Digits where
  digits : Nat
  exponent : Int
deriving DecidableEq

/-- The numerator and denominator of `(num / den) / 10 ^ e`. -/
def overPowerOfTen (num den : Nat) (e : Int) : Nat × Nat :=
  (num * Nat.pow 10 (-e).toNat, den * Nat.pow 10 e.toNat)

/-- The number of decimal digits of a natural number, one for zero. -/
def digitCount (n : Nat) : Nat := (Nat.toDigits 10 n).length

/-- The exponent `e` with `10 ^ e ≤ num / den < 10 ^ (e + 1)`, for a positive quotient. -/
def leading (num den : Nat) : Int :=
  let guess : Int := digitCount num - digitCount den
  let (n, d) := overPowerOfTen num den guess
  if d ≤ n then guess else guess - 1

/-- The quotient rounded to a natural number, an exact half to the even neighbour. -/
def roundDiv (num den : Nat) : Nat :=
  let q := num / den
  match compare (2 * (num % den)) den with
  | .lt => q
  | .gt => q + 1
  | .eq => if q % 2 = 0 then q else q + 1

/-- The reals that round to this double contain `num / den`; the ends belong to them when the
mantissa is even. -/
def Binary.contains (b : Binary) (num den : Nat) : Bool :=
  let below := if b.narrowBelow then 4 * b.mantissa - 1 else 4 * b.mantissa - 2
  let above := 4 * b.mantissa + 2
  let even := b.mantissa % 2 == 0
  let scaled := num * 4 * Nat.pow 2 (-b.exponent).toNat
  let unit := den * Nat.pow 2 b.exponent.toNat
  (decide (below * unit < scaled) || (even && scaled == below * unit)) &&
    (decide (scaled < above * unit) || (even && scaled == above * unit))

/-- Trailing zeros moved from the digits into the exponent; `fuel` bounds their number. -/
def Digits.strip : Nat → Digits → Digits
  | 0, d => d
  | fuel + 1, d =>
    if d.digits ≠ 0 ∧ d.digits % 10 = 0 then strip fuel ⟨d.digits / 10, d.exponent + 1⟩ else d

/-- The point of the grid `10 ^ e` next to the value that reads back as the same double, if one of
the value's two neighbours on the grid does; of two the nearer, and of two equally near the even
one. -/
def Binary.onGrid? (b : Binary) (e : Int) : Option Digits :=
  let (num, den) := b.ratio
  let (n, d) := overPowerOfTen num den e
  let low := n / d
  let readsBack (k : Nat) : Bool := b.contains (k * Nat.pow 10 e.toNat) (Nat.pow 10 (-e).toNat)
  match readsBack low, readsBack (low + 1) with
  | true, true => some ⟨roundDiv n d, e⟩
  | true, false => some ⟨low, e⟩
  | false, true => some ⟨low + 1, e⟩
  | false, false => none

/-- The fewest digits that read back as the same double, seventeen at most. -/
def Digits.shortest (b : Binary) : Digits :=
  if b.mantissa = 0 then ⟨0, 0⟩
  else
    let (num, den) := b.ratio
    let lead := leading num den
    let grids := (List.range 17).map fun (i : Nat) => lead - (i : Int)
    let found := (grids.findSome? b.onGrid?).getD
      (let (n, d) := overPowerOfTen num den (lead - 16); ⟨roundDiv n d, lead - 16⟩)
    found.strip 20

/-- The value rounded to `count` significant digits, without trailing zeros. -/
def Digits.rounded (count : Nat) (b : Binary) : Digits :=
  if b.mantissa = 0 then ⟨0, 0⟩
  else
    let (num, den) := b.ratio
    let e := leading num den - count + 1
    let (n, d) := overPowerOfTen num den e
    (Digits.mk (roundDiv n d) e).strip (count + 1)

end DiagramLayout.Decimal

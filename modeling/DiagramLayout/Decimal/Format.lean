import DiagramLayout.Decimal.Digits

/-!
# How numbers are written

A `Format` says how many digits are kept, where positional notation ends and how an exponent is
written.
-/

namespace DiagramLayout.Decimal

/-- The decisions of a number format. -/
structure Format where
  /-- The count of significant digits; without one, as few as read back. -/
  places : Option Nat
  /-- The least power of ten of the first digit that is written positionally. -/
  least : Int
  /-- The first power of ten of the first digit that is written with an exponent. -/
  limit : Int
  /-- A whole number written positionally ends in `.0`. -/
  pointed : Bool
  /-- The least count of digits of an exponent. -/
  exponentPlaces : Nat
  nan : String
  infinity : String

/-- Numbers are written with the fewest digits that read back, positionally from `1e-4` to below
`1e16`. -/
def Format.exact : Format where
  places := none
  least := -4
  limit := 16
  pointed := true
  exponentPlaces := 2
  nan := "NaN"
  infinity := "inf"

/-- Numbers in names have six significant digits, and an exponent from a million on. -/
def Format.general : Format where
  places := some 6
  least := -4
  limit := 6
  pointed := false
  exponentPlaces := 2
  nan := "nan"
  infinity := "inf"

/-- An exponent has a sign always, and zeros in front where digits are wanting. -/
def exponentText (places : Nat) (e : Int) : String :=
  let digits := Nat.toDigits 10 e.natAbs
  (if e < 0 then "e-" else "e+") ++
    String.ofList (List.replicate (places - digits.length) '0' ++ digits)

/-- Digits around the point; `lead` is the power of ten of the first digit. -/
def Format.layout (f : Format) (digits : List Char) (lead : Int) : String :=
  if f.least ≤ lead ∧ lead < f.limit then
    if lead < 0 then
      "0." ++ String.ofList (List.replicate (-lead - 1).toNat '0' ++ digits)
    else
      let whole := digits.take (lead.toNat + 1)
      let padded := whole ++ List.replicate (lead.toNat + 1 - whole.length) '0'
      match digits.drop (lead.toNat + 1) with
      | [] => String.ofList padded ++ (if f.pointed then ".0" else "")
      | fraction => String.ofList padded ++ "." ++ String.ofList fraction
  else
    match digits with
    | [] => exponentText f.exponentPlaces lead
    | [d] => String.ofList [d] ++ exponentText f.exponentPlaces lead
    | d :: fraction => String.ofList (d :: '.' :: fraction) ++ exponentText f.exponentPlaces lead

/-- The text of a number in a format. -/
def Format.render (f : Format) (x : Float) : String :=
  match Binary.ofFloat? x with
  | none => if x.isNaN then f.nan else if x < 0.0 then "-" ++ f.infinity else f.infinity
  | some b =>
    let d := match f.places with
      | none => Digits.shortest b
      | some count => Digits.rounded count b
    let digits := Nat.toDigits 10 d.digits
    (if b.negative then "-" else "") ++ f.layout digits (d.exponent + digits.length - 1)

example : Format.exact.render 0.1 = "0.1" := by decide +kernel
example : Format.exact.render 25.0 = "25.0" := by decide +kernel
example : Format.exact.render 1e16 = "1e+16" := by decide +kernel
example : Format.exact.render 2.98023223876953125e-8 = "2.9802322387695312e-08" := by
  decide +kernel
example : Format.general.render 123456789.0 = "1.23457e+08" := by decide +kernel
example : Format.general.render 0.0001 = "0.0001" := by decide +kernel

end DiagramLayout.Decimal

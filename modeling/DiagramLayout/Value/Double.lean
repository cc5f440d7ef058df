import DiagramLayout.Scalar.Double
import DiagramLayout.Value

namespace DiagramLayout

/-- Numbers in a listing have the fewest digits that read back. -/
def listingFormat : Decimal.Format := { Decimal.Format.exact with nan := "nan" }

namespace Value

/-- A value read as an integer: the fraction of a number is left out, truth counts one or zero, and
text is read. -/
def toInteger : Value Float → Except Fault Int
  | number x =>
    match Decimal.truncate? x with
    | some n => .ok n
    | none => .error (if x.isNaN then .unreadable else .tooLarge)
  | integer n => .ok n
  | truth b => .ok (if b then 1 else 0)
  | text s =>
    match Decimal.readWhole? s with
    | some n => .ok n
    | none => .error .unreadable
  | _ => .error .wrongForm

/-- The position of a node: that of a handle, or any value that reads as an integer. -/
def position : Value Float → Except Fault Int
  | handle h => .ok h.node
  | v => v.toInteger

mutual

/-- A value in full; `describe` gives the text of a handle. -/
def listing (describe : Handle → String) : Value Float → String
  | number x => listingFormat.render x
  | handle h => describe h
  | list vs => "[" ++ ", ".intercalate (listings describe vs) ++ "]"
  | v => v.toText

/-- Several values in full. -/
def listings (describe : Handle → String) : List (Value Float) → List String
  | [] => []
  | v :: vs => listing describe v :: listings describe vs

end

end Value

end DiagramLayout

import DiagramLayout.Text.Digit

/-!
# Reading numbers from text

A numeral is a sign, digits around an optional point and an exponent, or one of the words for
infinity and NaN in any case. Blanks around it are ignored, digits of every script count, and a
single underscore may stand between two digits.
-/

namespace DiagramLayout.Decimal

open DiagramLayout.Text

/-- Whether a character is a blank: a space, or what moves on a line or to the next one. The
separators of files, groups, records and units are none. -/
def isBlank (c : Char) : Bool :=
  let n := c.toNat
  decide ((0x9 ≤ n ∧ n ≤ 0xd) ∨ n = 0x20 ∨ n = 0x85 ∨ n = 0xa0 ∨ n = 0x1680 ∨
    (0x2000 ≤ n ∧ n ≤ 0x200a) ∨ n = 0x2028 ∨ n = 0x2029 ∨ n = 0x202f ∨ n = 0x205f ∨ n = 0x3000)

/-- Text without the blanks at its ends. -/
def trimBlanks (cs : List Char) : List Char :=
  ((cs.dropWhile isBlank).reverse.dropWhile isBlank).reverse

/-- A decimal digit of any script as the digit of the Latin script. -/
def latinDigit (c : Char) : Char :=
  match decimalDigit? c with
  | some d => Char.ofNat ('0'.toNat + d)
  | none => c

/-- Underscores between two digits taken out; none when one stands elsewhere. -/
def joinDigits? (previous : Option Char) : List Char → Option (List Char)
  | [] => some []
  | '_' :: next :: rest =>
    if (previous.any Char.isDigit) && next.isDigit then
      (joinDigits? (some next) rest).map (next :: ·)
    else none
  | ['_'] => none
  | c :: rest => (joinDigits? (some c) rest).map (c :: ·)

/-- What a text can say about a number. -/
inductive Numeral where
  | decimal (negative : Bool) (digits : Nat) (exponent : Int)
  | infinity (negative : Bool)
  | nan
deriving DecidableEq

/-- The value of a run of digits. -/
def naturalOf (cs : List Char) : Nat := cs.foldl (fun n c => 10 * n + (c.toNat - '0'.toNat)) 0

/-- A text without its sign, and whether that is a minus. -/
def splitSign : List Char → Bool × List Char
  | '-' :: rest => (true, rest)
  | '+' :: rest => (false, rest)
  | rest => (false, rest)

/-- The integer that a sign and digits of the Latin script spell. -/
def readInteger? (cs : List Char) : Option Int :=
  let (negative, digits) := splitSign cs
  if digits ≠ [] ∧ digits.all Char.isDigit then
    some (if negative then -(naturalOf digits : Int) else naturalOf digits)
  else none

/-- The exponent after the digits: nothing, or a mark, a sign and digits up to the end. -/
def readExponent? : List Char → Option Int
  | [] => some 0
  | mark :: rest =>
    if mark = 'e' ∨ mark = 'E' then readInteger? rest else none

/-- The digits around the point and the exponent. -/
def readUnsigned? (negative : Bool) (cs : List Char) : Option Numeral :=
  let whole := cs.takeWhile Char.isDigit
  let rest := cs.dropWhile Char.isDigit
  let (fraction, tail) := match rest with
    | '.' :: more => (more.takeWhile Char.isDigit, more.dropWhile Char.isDigit)
    | _ => ([], rest)
  if whole = [] ∧ fraction = [] then none
  else (readExponent? tail).map fun e =>
    .decimal negative (naturalOf (whole ++ fraction)) (e - fraction.length)

/-- The numeral that characters spell, with nothing before, between or after. -/
def Numeral.ofChars? (cs : List Char) : Option Numeral :=
  let (negative, body) := splitSign cs
  let word := String.ofList (body.map Char.toLower)
  if word = "inf" ∨ word = "infinity" then some (.infinity negative)
  else if word = "nan" then some .nan
  else readUnsigned? negative body

/-- The numeral that a text holds. -/
def Numeral.read? (s : String) : Option Numeral := do
  Numeral.ofChars? (← joinDigits? none ((trimBlanks s.toList).map latinDigit))

/-- The integer that a text holds, with all that is allowed around and inside it. -/
def readWhole? (s : String) : Option Int := do
  let cs ← joinDigits? none ((trimBlanks s.toList).map latinDigit)
  if digitLimit < (splitSign cs).2.length then none else readInteger? cs

/-- The double nearest to `digits · 10 ^ exponent`. A number beyond every double is cut off before
its power of ten is formed. -/
def nearestFloat (digits : Nat) (exponent : Int) : Float :=
  let size : Int := (Nat.toDigits 10 digits).length
  if digits = 0 ∨ size + exponent < -400 then 0.0
  else if 400 < size + exponent then 1.0 / 0.0
  else if exponent < 0 then Float.ofScientific digits true exponent.natAbs
  else Float.ofScientific digits false exponent.natAbs

/-- The value of a numeral. -/
def Numeral.toFloat : Numeral → Float
  | .decimal negative digits exponent =>
    if negative then -nearestFloat digits exponent else nearestFloat digits exponent
  | .infinity negative => if negative then -(1.0 / 0.0) else 1.0 / 0.0
  | .nan => 0.0 / 0.0

/-- The number that a text holds. -/
def readFloat? (s : String) : Option Float := (Numeral.read? s).map Numeral.toFloat

/-- The double nearest to an integer, unless it lies beyond every double. -/
def integerFloat? (n : Int) : Option Float :=
  let x := nearestFloat n.natAbs 0
  if x.isFinite then some (if n < 0 then -x else x) else none

example : Numeral.read? " 1_0.5e-1 " = some (.decimal false 105 (-2)) := by decide +kernel
example : Numeral.read? "-Infinity" = some (.infinity true) := by decide +kernel
example : Numeral.read? "1__0" = none := by decide +kernel
example : Numeral.ofChars? [' ', '1'] = none := by decide +kernel

end DiagramLayout.Decimal

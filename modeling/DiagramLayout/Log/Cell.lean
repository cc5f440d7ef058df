import DiagramLayout.Decimal.Format
import DiagramLayout.Decimal.Reading
import DiagramLayout.Fault

/-!
# Cells of a log table

* `Cell`: a value of a row, or none;
* `ColumnType`: what the cells of a column have in common;
* `ColumnType.join?`: the type of two columns of one name put below each other;
* `ColumnType.blend?`: the type of two values of one list;
* `Cell.type`: the type of a value alone;
* `Cell.enter`: a value put into a column whose type was found without it;
* `Cell.cast`: a cell of a column that takes another type.

A value that does not fit is refused when it enters a column, and goes missing when the column is
cast. Lists stand in columns of lists only, and no such column has a written form.
-/

namespace DiagramLayout.Log

/-- A cell of a table. -/
inductive Cell where
  | missing
  | integer (n : Int)
  | number (x : Float)
  | text (s : String)
  | truth (b : Bool)
  | list (items : List Cell)
deriving Inhabited

/-- The type of a column; an empty one has no cell but missing ones. -/
inductive ColumnType where
  | empty
  | truth
  /-- Integers of 64 bits. -/
  | integer
  /-- Integers of 128 bits. -/
  | wide
  /-- Integers of 128 bits without a sign. -/
  | unsigned
  | number
  | text
  | list (items : ColumnType)
deriving DecidableEq, Repr

namespace ColumnType

/-- The least integer of a type of integers, and the first one above all of them. -/
def range? : ColumnType → Option (Int × Int)
  | integer => some (-Int.pow 2 63, Int.pow 2 63)
  | wide => some (-Int.pow 2 127, Int.pow 2 127)
  | unsigned => some (0, Int.pow 2 128)
  | _ => none

/-- Whether an integer is one of a type. -/
def holds (t : ColumnType) (n : Int) : Bool :=
  match t.range? with
  | some (least, above) => decide (least ≤ n ∧ n < above)
  | none => false

/-- The first type that an integer is of, unless it is too large for all. -/
def ofInteger? (n : Int) : Option ColumnType := [integer, wide, unsigned].find? (·.holds n)

/-- Whether cells of a type are lists. -/
def isList : ColumnType → Bool
  | list _ => true
  | _ => false

/-- The least type that values of both types can be seen as. A list is seen as nothing but a text or
a list of another type. -/
def join? : ColumnType → ColumnType → Option ColumnType
  | empty, t => some t
  | t, empty => some t
  | text, _ => some text
  | _, text => some text
  | list s, list t => (join? s t).map list
  | list _, _ => none
  | _, list _ => none
  | number, _ => some number
  | _, number => some number
  | truth, t => some t
  | t, truth => some t
  | integer, integer => some integer
  | unsigned, unsigned => some unsigned
  | _, _ => some wide

/-- The type of two values of one list, which are of one type, both integers or both lists. -/
def blend? (s t : ColumnType) : Option ColumnType :=
  if s = t ∨ s = empty ∨ t = empty ∨ s.range?.isSome ∧ t.range?.isSome ∨ s.isList ∧ t.isList then
    s.join? t
  else none

/-- The type of a column of two frames whose columns differ: their own if it is one, text if one of
them is, and otherwise numbers. -/
def aligned (s t : ColumnType) : ColumnType :=
  if s = t then s else if s = text ∨ t = text then text else number

end ColumnType

/-- Numbers are written with the fewest digits that read back, positionally from `1e-5` to below
`1e16`. -/
def writtenFormat : Decimal.Format where
  places := none
  least := -5
  limit := 16
  pointed := true
  exponentPlaces := 1
  nan := "NaN"
  infinity := "inf"

/-- Numbers among texts are written positionally, however long, and whole ones without a point. -/
def plainFormat : Decimal.Format where
  places := none
  least := -400
  limit := 400
  pointed := false
  exponentPlaces := 1
  nan := "NaN"
  infinity := "inf"

namespace Cell

mutual

/-- The type of a value alone. An integer may be too large for every type, and the values of a list
may not go together. -/
def type : Cell → Except Fault ColumnType
  | missing => .ok .empty
  | integer n =>
    match ColumnType.ofInteger? n with
    | some t => .ok t
    | none => .error .tooLarge
  | number _ => .ok .number
  | text _ => .ok .text
  | truth _ => .ok .truth
  | list items => do
    match (← types items).foldlM ColumnType.blend? .empty with
    | some t => .ok (.list t)
    | none => .error .wrongForm

/-- The types of several values. -/
def types : List Cell → Except Fault (List ColumnType)
  | [] => .ok []
  | c :: cs => return (← type c) :: (← types cs)

end

/-- The text of a cell that is neither missing nor a list. -/
def toText : Cell → String
  | missing | list _ => ""
  | integer n => toString n
  | number x => writtenFormat.render x
  | text s => s
  | truth b => if b then "true" else "false"

/-- An integer as a double, infinite if it lies beyond every double. -/
def integerNumber (n : Int) : Float :=
  let x := Decimal.nearestFloat n.natAbs 0
  if n < 0 then -x else x

/-- The integer that a text spells, if 128 bits hold it. -/
def spelledInteger? (s : String) : Option Int :=
  (Decimal.readInteger? s.toList).filter ColumnType.wide.holds

/-- The number that a text spells. -/
def spelledNumber? (s : String) : Option Float :=
  (Decimal.Numeral.ofChars? s.toList).map Decimal.Numeral.toFloat

/-- A value as an integer, without the fraction that it may have. -/
def whole? : Cell → Option Int
  | missing | list _ => none
  | integer n => some n
  | number x => Decimal.truncate? x
  | text s => (spelledInteger? s).or ((spelledNumber? s).bind Decimal.truncate?)
  | truth b => some (if b then 1 else 0)

/-- A value as a number. -/
def number? : Cell → Option Float
  | missing | list _ => none
  | integer n => some (integerNumber n)
  | number x => some x
  | text s => ((spelledInteger? s).map integerNumber).or (spelledNumber? s)
  | truth b => some (if b then 1.0 else 0.0)

/-- A value as a text; integers of more than 64 bits have none. -/
def text? : Cell → Option String
  | missing | list _ => none
  | integer n => if ColumnType.integer.holds n then some (toString n) else none
  | number x => some (plainFormat.render x)
  | text s => some s
  | truth b => some (if b then "true" else "false")

/-- A value as a truth: a small integer is true if it is one. -/
def truth? : Cell → Option Bool
  | truth b => some b
  | c => (c.whole?.filter fun n => decide (0 ≤ n ∧ n < 256)).map (· == 1)

/-- A cell that was found for a column, or the fault that there is none. -/
def orUnfit : Option Cell → Except Fault Cell
  | some c => .ok c
  | none => .error (.misfit .cell)

/-- A value put into a column. A list enters a column of lists only. Of other values, what a column of
lists or of integers of more than 64 bits cannot hold goes missing; any other column refuses it. -/
def enter (t : ColumnType) : Cell → Except Fault Cell
  | missing => .ok missing
  | list items => orUnfit (if t.isList then some (list items) else none)
  | c => orUnfit <| match t with
    | .empty => none
    | .truth => c.truth?.map truth
    | .integer => (c.whole?.filter t.holds).map integer
    | .wide | .unsigned => some (((c.whole?.filter t.holds).map integer).getD missing)
    | .number => c.number?.map number
    | .text => c.text?.map text
    | .list _ => some missing

/-- A cell in a column of a type; what the type cannot hold is missing. -/
def cast (t : ColumnType) (c : Cell) : Cell :=
  match t, c with
  | _, missing => missing
  | t, list items => if t.isList then list items else missing
  | .text, c => text c.toText
  | .number, integer n => number (integerNumber n)
  | .number, truth b => number (if b then 1.0 else 0.0)
  | .number, number x => number x
  | .truth, truth b => truth b
  | t, truth b => if t.holds 1 then integer (if b then 1 else 0) else missing
  | t, integer n => if t.holds n then integer n else missing
  | _, _ => missing

end Cell

example : writtenFormat.render 1e-5 = "0.00001" := by decide +kernel
example : writtenFormat.render 1.5e-6 = "1.5e-6" := by decide +kernel
example : writtenFormat.render 9223372036854775808.0 = "9.223372036854776e+18" := by decide +kernel
example : plainFormat.render (-0.0) = "-0" := by decide +kernel
example : plainFormat.render 1e16 = "10000000000000000" := by decide +kernel

end DiagramLayout.Log

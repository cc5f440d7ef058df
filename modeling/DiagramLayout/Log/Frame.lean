import DiagramLayout.Log.Cell
import DiagramLayout.Keyed

namespace DiagramLayout.Log

/-- A row as named cells. -/
abbrev Record := List (String × Cell)

/-- A column: its cells are missing or of its type. -/
structure Column where
  name : String
  type : ColumnType
  cells : List Cell

/-- Columns of one height. -/
structure Frame where
  columns : List Column
  height : Nat

namespace Frame

/-- The names of the columns, in order. -/
def names (f : Frame) : List String := f.columns.map (·.name)

/-- The column with a name. -/
def column? (f : Frame) (name : String) : Option Column := f.columns.find? (·.name == name)

/-- The number of rows that the columns and their types are found from. -/
def sampleSize : Nat := 100

/-- The names in the sample of some records, in the order in which they first appear. -/
def sampleNames (records : List Record) : List String :=
  ((records.take sampleSize).flatMap fun r => r.map (·.1)).eraseDups

/-- The values of a name over some records. -/
def valuesOf (records : List Record) (name : String) : List Cell :=
  records.map fun r => (r.lookup name).getD .missing

/-- The types of the values of some records, row by row. -/
def rowTypes (names : List String) (records : List Record) :
    Except Fault (List (List ColumnType)) :=
  records.mapM fun r => names.mapM fun name => ((r.lookup name).getD .missing).type

/-- The type of a column whose sample has these types. -/
def sampleType (types : List ColumnType) : Except Fault ColumnType :=
  match (types.take sampleSize).foldlM ColumnType.join? .empty with
  | some t => .ok t
  | none => .error (.misfit .column)

/-- The column of some values that each have to fit it. -/
def columnOf (name : String) (type : ColumnType) (values : List Cell) : Except Fault Column := do
  return { name, type, cells := ← values.mapM (Cell.enter type) }

/-- The frame of some records. All types are found before the first value enters its column. -/
def ofRecords (records : List Record) : Except Fault Frame := do
  let names := sampleNames records
  let rows ← rowTypes names records
  let typed ← names.zipIdx.mapM fun (name, i) => do
    return (name, ← sampleType (rows.map fun row => row.getD i .empty))
  let columns ← typed.mapM fun (name, type) => columnOf name type (valuesOf records name)
  return { columns, height := records.length }

/-- A column cast to a type; lists are cast to lists only. -/
def castColumn? (t : ColumnType) (c : Column) : Option Column :=
  if c.type.isList ∧ !t.isList then none
  else some { c with type := t, cells := c.cells.map (Cell.cast t) }

/-- Two columns of one type below each other. -/
def join (c d : Column) : Column := { c with cells := c.cells ++ d.cells }

/-- Frames with the same columns in the same order below each other, if their types allow it. -/
def stack? (f g : Frame) : Option Frame := do
  let columns ← (f.columns.zip g.columns).mapM fun (c, d) => do
    let t ← c.type.join? d.type
    return join (← castColumn? t c) (← castColumn? t d)
  return { columns, height := f.height + g.height }

/-- The names of two frames in the order of their characters. -/
def allNames (f g : Frame) : List String :=
  (f.names ++ g.names).eraseDups.mergeSort fun a b => decide (a ≤ b)

/-- The type of a column of either frame in both. -/
def targetType (f g : Frame) (name : String) : ColumnType :=
  match f.column? name, g.column? name with
  | some c, some d => c.type.aligned d.type
  | some c, none => c.type
  | none, some d => d.type
  | none, none => .empty

/-- The name that stands for all columns where columns are looked up. -/
def everyColumn : String := "*"

/-- A frame with given columns and types; a column that it lacks is missing in every row. None of
several columns may stand for the others.

Each column is looked up and cast by its name as it stands. The column `everyColumn` is cast without the
columns beside it; if there are any, the frame is refused in any case. A name from `^` to `$` is a name
like others here, and no pattern for names. -/
def conform (f : Frame) (targets : List (String × ColumnType)) : Except Fault Frame := do
  let columns ← targets.mapM fun (name, type) =>
    match f.column? name with
    | none => .ok { name, type, cells := List.replicate f.height .missing }
    | some c =>
      match castColumn? type c with
      | some c => .ok c
      | none => .error (.misfit .cast)
  if everyColumn ∈ targets.map (·.1) ∧ 1 < targets.length then throw (.misfit .ambiguous)
  return { columns, height := f.height }

/-- Frames with any columns below each other, the columns in the order of their names. -/
def align (f g : Frame) : Except Fault Frame := do
  let targets := (allNames f g).map fun name => (name, targetType f g name)
  let f' ← f.conform targets
  let g' ← g.conform targets
  return { columns := f'.columns.zipWith join g'.columns, height := f'.height + g'.height }

/-- Frames below each other; frames with different columns are aligned. -/
def append (f g : Frame) : Except Fault Frame :=
  match if f.names = g.names then f.stack? g else none with
  | some h => .ok h
  | none => f.align g

end Frame

end DiagramLayout.Log

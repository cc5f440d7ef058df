import DiagramLayout.Log.Frame
import DiagramLayout.Text.Digit

/-!
# Tables as text

A table is written as lines of fields with commas between them, the names of the columns first. A
missing cell is an empty field. A text is quoted if it is empty or holds a comma, a quote or a line
break, and a quote inside is written twice. The types of the columns are not written: they are read
off the fields of the first rows, and every field has to be of the type of its column.
-/

namespace DiagramLayout.Log

/-- A field of a line, and whether it was quoted. -/
structure Field where
  text : String
  quoted : Bool
deriving DecidableEq, Repr

/-- A text with every quote written twice. -/
def doubleQuotes (s : String) : String :=
  String.ofList (s.toList.flatMap fun c => if c = '"' then ['"', '"'] else [c])

/-- A text as a field. -/
def encodeText (s : String) : String :=
  if s = "" ∨ s.toList.any (fun c => c == ',' || c == '"' || c == '\n' || c == '\r') then
    "\"" ++ doubleQuotes s ++ "\""
  else s

/-- A cell as a field. -/
def Cell.encode : Cell → String
  | missing => ""
  | text s => encodeText s
  | c => c.toText

/-- A line of fields. -/
def encodeLine (fields : List String) : String := ",".intercalate fields ++ "\n"

/-- The cells of a row. -/
def Frame.row (f : Frame) (i : Nat) : List Cell := f.columns.map fun c => c.cells.getD i .missing

/-- A table as text, which is empty without columns. -/
def Frame.write (f : Frame) : Except Fault String :=
  if f.columns.any (·.type.isList) then .error (.misfit .nested)
  else if f.columns.isEmpty then .ok ""
  else .ok <| encodeLine (f.names.map encodeText) ++
    String.join ((List.range f.height).map fun i => encodeLine ((f.row i).map Cell.encode))

/-- Where a reader of fields stands. -/
inductive Position where
  | start
  | plain
  | quoted
  /-- After a quote inside a quoted field. -/
  | closed
deriving DecidableEq

/-- A field from its characters, the last one first. -/
def Field.ofReversed (quoted : Bool) (cs : List Char) : Field := ⟨String.ofList cs.reverse, quoted⟩

/-- The lines of fields of a text. `field` holds the characters of the field being read, the last one
first, and `line` the fields before it. -/
def readLines (position : Position) (field : List Char) (line : List Field) :
    List Char → List (List Field)
  | [] =>
    if position = .start ∧ line = [] then []
    else [line ++ [Field.ofReversed (position == .closed || position == .quoted) field]]
  | c :: cs =>
    match position with
    | .quoted =>
      if c = '"' then readLines .closed field line cs else readLines .quoted (c :: field) line cs
    | p =>
      if c = ',' then readLines .start [] (line ++ [Field.ofReversed (p == .closed) field]) cs
      else if c = '\n' then
        (line ++ [Field.ofReversed (p == .closed) field]) :: readLines .start [] [] cs
      else if c = '"' then
        match p with
        | .start => readLines .quoted [] line cs
        | .closed => readLines .quoted ('"' :: field) line cs
        | _ => readLines .plain (c :: field) line cs
      else readLines (if p = .start then .plain else p) (c :: field) line cs

/-- Whether a field is left out. -/
def Field.isMissing (f : Field) : Bool := f.text == "" && !f.quoted

/-- The name of a column. Two quotes inside a quoted name stay two. -/
def Field.columnName (f : Field) : String := if f.quoted then doubleQuotes f.text else f.text

/-- Whether there are characters and all of them are decimal digits of some script. -/
def areDigits (cs : List Char) : Bool :=
  !cs.isEmpty && cs.all fun c => (Text.decimalDigit? c).isSome

/-- Whether a text looks like an integer. -/
def looksInteger (s : String) : Bool :=
  match s.toList with
  | '-' :: cs => areDigits cs
  | cs => areDigits cs

/-- Whether a text looks like the exponent of a number. -/
def looksExponent : List Char → Bool
  | mark :: cs => (mark == 'e' || mark == 'E') && areDigits (Decimal.splitSign cs).2
  | [] => false

/-- Whether a text looks like a number with a point or an exponent, an infinity or NaN. After a point
an exponent needs a digit before it. -/
def looksNumber (s : String) : Bool :=
  let body := (Decimal.splitSign s.toList).2
  let isDigit (c : Char) : Bool := (Text.decimalDigit? c).isSome
  let whole := body.takeWhile isDigit
  String.ofList body == "inf" || String.ofList body == "NaN" ||
    match body.dropWhile isDigit with
    | '.' :: rest =>
      let fraction := rest.takeWhile isDigit
      let tail := rest.dropWhile isDigit
      if fraction.isEmpty then !whole.isEmpty && tail.isEmpty
      else tail.isEmpty || looksExponent tail
    | tail => !whole.isEmpty && looksExponent tail

/-- A letter in lower case; the long s is an s. -/
def foldCase (c : Char) : Char := if c = 'ſ' then 's' else c.toLower

/-- Whether a text looks like a truth. -/
def looksTruth (s : String) : Bool :=
  let word := String.ofList (s.toList.map foldCase)
  word == "true" || word == "false"

/-- The type that a field looks like. -/
def Field.type (f : Field) : ColumnType :=
  if looksTruth f.text then .truth
  else if looksNumber f.text then .number
  else if looksInteger f.text then
    if (Decimal.readInteger? f.text.toList).any ColumnType.integer.holds then .integer else .wide
  else .text

/-- The type of a column of fields. Fields of two types go together if both are integers or numbers;
other mixtures are text. -/
def typeOf (fields : List Field) : ColumnType :=
  match ((fields.filter (!·.isMissing)).map Field.type).eraseDups with
  | [t] => t
  | [.integer, .number] | [.number, .integer] | [.wide, .number] | [.number, .wide] => .number
  | [.integer, .wide] | [.wide, .integer] => .wide
  | _ => .text

/-- The cell of a truth. -/
def readTruth? (s : String) : Option Cell :=
  match String.ofList (s.toList.map Char.toLower) with
  | "true" => some (.truth true)
  | "false" => some (.truth false)
  | _ => none

/-- The cell of characters in a column of integers or of numbers. -/
def readNumeral? (t : ColumnType) (cs : List Char) : Option Cell :=
  if t = .number then (Decimal.Numeral.ofChars? cs).map fun n => .number n.toFloat
  else ((Decimal.readInteger? cs).filter t.holds).map .integer

/-- A field as a cell of a column. In a column of integers or of numbers the blanks before a field
are passed over, and a field of nothing else is missing. -/
def Field.cell (t : ColumnType) (f : Field) : Except Fault Cell :=
  if f.isMissing then .ok .missing
  else match t with
    | .empty | .list _ => .ok .missing
    | .text => .ok (.text f.text)
    | .truth => if f.text = "" then .ok .missing else Cell.orUnfit (readTruth? f.text)
    | _ =>
      match f.text.toList.dropWhile fun c => c == ' ' || c == '\t' with
      | [] => .ok .missing
      | cs => Cell.orUnfit (readNumeral? t cs)

/-- A text without the mark of its encoding. -/
def dropMark : List Char → List Char
  | '\ufeff' :: cs => cs
  | cs => cs

/-- Names with the repeated ones numbered; `seen` are the names before them. -/
def numberRepeats (seen : List String) : List String → List String
  | [] => []
  | name :: rest =>
    let new :=
      if name ∈ seen then name ++ "_duplicated_" ++ toString (seen.count name - 1) else name
    new :: numberRepeats (name :: seen) rest

/-- A text as the names of columns and lines of fields. -/
structure Sheet where
  names : List String
  lines : List (List Field)

namespace Sheet

/-- The lines of a text; empty ones before the names are passed over. -/
def ofText (text : String) : Except Fault Sheet :=
  match (readLines .start [] [] (dropMark text.toList)).dropWhile (· == [⟨"", false⟩]) with
  | [] => .error (.misfit .noLines)
  | header :: lines => .ok ⟨(numberRepeats [] (header.map Field.columnName)).eraseDups, lines⟩

/-- The fields of a column. -/
def fields (s : Sheet) (i : Nat) : List Field := s.lines.map fun line => line.getD i ⟨"", false⟩

/-- The types of the columns, found from the first lines. -/
def types (s : Sheet) : List ColumnType :=
  (List.range s.names.length).map fun i => typeOf ((s.fields i).take Frame.sampleSize)

/-- The table of a sheet whose columns have these types. -/
def frame (s : Sheet) (types : List ColumnType) : Except Fault Frame := do
  if s.lines.any fun line => s.names.length < line.length then throw (.misfit .longLine)
  let columns ← (s.names.zip types).zipIdx.mapM fun ((name, type), i) => do
    return { name, type, cells := ← (s.fields i).mapM (Field.cell type) }
  return { columns, height := s.lines.length }

/-- Types joined with those of a sheet that has these names. -/
def joinTypes? (names : List String) (types : List ColumnType) (s : Sheet) :
    Option (List ColumnType) :=
  if s.names = names then (types.zip s.types).mapM fun (t, u) => t.join? u else none

end Sheet

/-- The tables of some texts below each other. Their columns have the same names, and each is read
with the types of all of them. -/
def Frame.readAll (texts : List String) : Except Fault Frame := do
  match ← texts.mapM Sheet.ofText with
  | [] => throw (.misfit .noFile)
  | first :: rest =>
    match rest.foldlM (Sheet.joinTypes? first.names) first.types with
    | none => throw (.misfit .unlike)
    | some types =>
      let others ← rest.mapM (·.frame types)
      others.foldlM Frame.append (← first.frame types)

/-- A table from its text. -/
def Frame.read (text : String) : Except Fault Frame := Frame.readAll [text]

end DiagramLayout.Log

import DiagramLayout.Log.Location

namespace DiagramLayout.Log

/-- Files by place, with their text, and the folders made for them. -/
structure Directory where
  files : List (List String × String) := []
  folders : List (List String) := []

namespace Directory

/-- The path of a log. -/
def path (name : String) : String := (Location.ofName name).path

/-- The text of the file at a place. -/
def file? (d : Directory) (place : List String) : Option String := d.files.lookup place

/-- The text of a log, if it was written. -/
def text? (d : Directory) (name : String) : Option String :=
  d.file? (Location.ofName name).resolved

/-- The files below the folder of all logs, by their names there. -/
def listing (d : Directory) : List (String × String) :=
  d.files.map fun (place, text) => ("/".intercalate (place.drop 1), text)

/-- The file at a place with a text, put or replaced. -/
def put (place : List String) (text : String) (d : Directory) : Directory :=
  if (d.file? place).isSome then
    { d with files := d.files.map fun (other, old) => (other, if other = place then text else old) }
  else { d with files := d.files ++ [(place, text)] }

/-- The places of all files and folders. -/
def places (d : Directory) : List (List String) := d.files.map (·.1) ++ d.folders

/-- The names of what stands in a folder, in the order of their characters. The root and steps
upwards stand in no folder. -/
def children (d : Directory) (folder : List String) : List String :=
  let names := d.places.filterMap fun place =>
    if place.dropLast = folder then place.getLast? else none
  (names.filter fun name => name ≠ "" ∧ name ≠ "..").eraseDups.mergeSort fun a b => decide (a ≤ b)

/-- The places below a folder to a depth, each before those below it. -/
def below (d : Directory) : Nat → List String → List (List String)
  | 0, _ => []
  | depth + 1, folder => (d.children folder).flatMap fun name =>
    (folder ++ [name]) :: d.below depth (folder ++ [name])

end Directory

end DiagramLayout.Log

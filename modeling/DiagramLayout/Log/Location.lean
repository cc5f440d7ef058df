import DiagramLayout.Text.Parts

/-!
# Where logs stand

The name of a log is a path below the folder of all logs; one that begins with a slash starts at the
root instead. Empty steps and steps that stay in place are left out of it.
-/

namespace DiagramLayout.Log

/-- A file and the folders on the way to it, from the folder that all logs are seen from. A way from
the root begins with a folder without a name. -/
structure Location where
  folders : List String
  file : String
deriving DecidableEq, Repr

namespace Location

/-- The folder of all logs. -/
def top : String := "logs"

/-- The place of a log. -/
def ofName (name : String) : Location :=
  let parts := (Text.parts '/' (name ++ ".csv").toList).map String.ofList
  let steps := parts.filter fun step => step ≠ "" ∧ step ≠ "."
  { folders := (if parts.head? = some "" then "" else top) :: steps.dropLast
    file := steps.getLastD "" }

/-- The text of a place. -/
def path (l : Location) : String := "/".intercalate (l.folders ++ [l.file])

/-- Folders with each step upwards taken back together with the step before it; above the root there
is only the root. -/
def climb (folders : List String) : List String :=
  (folders.foldl (fun (way : List String) step =>
    if step = ".." then
      match way with
      | [] => [".."]
      | [""] => [""]
      | last :: before => if last = ".." then ".." :: way else before
    else step :: way) []).reverse

/-- The place without steps upwards. -/
def resolved (l : Location) : List String := climb l.folders ++ [l.file]

/-- The folders that the file stands in, the outermost first. -/
def ancestors (l : Location) : List (List String) :=
  (List.range l.folders.length).map fun i => climb (l.folders.take (i + 1))

/-- The greatest number of bytes of a name. -/
def nameLimit : Nat := 255

/-- Whether a name is too long. -/
def isLong (name : String) : Bool := nameLimit < name.utf8ByteSize

/-- The greatest number of bytes of a path. -/
def pathLimit : Nat := 4095

/-- Whether a path is too long. -/
def isFar (steps : List String) : Bool := pathLimit < ("/".intercalate steps).utf8ByteSize

/-- Whether a name has a zero character in it. -/
def isBroken (name : String) : Bool := name.toList.contains '\x00'

example : (ofName "a//./b").path = "logs/a/b.csv" := by decide +kernel
example : (ofName ".").path = "logs/..csv" := by decide +kernel
example : (ofName "a/../b").resolved = (ofName "b").resolved := by decide +kernel

end Location

end DiagramLayout.Log

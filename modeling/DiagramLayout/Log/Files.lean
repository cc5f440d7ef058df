import DiagramLayout.Log.Csv
import DiagramLayout.Log.Pattern

/-!
# Logs

Each log is one table in a file of its own. Records are appended to it, its columns and their types
growing as the records require.

What was written before a fault stays.
-/

namespace DiagramLayout.Log

/-- A computation that changes the directory and may fail; the directory outlives a fault. -/
abbrev Writing : Type → Type := ExceptT Fault (StateM Directory)

namespace Directory

/-- The folders on the way to a log, made where they are wanting; no file may stand there. -/
def makeFolders (l : Location) : Writing Unit := do
  let d ← get
  let taken (place : List String) : Bool := (d.file? place).isSome
  if l.folders.any Location.isBroken then throw (.obstructed .brokenFolder)
  if Location.isFar l.folders then throw (.obstructed .longName)
  if l.ancestors.dropLast.any taken then throw (.obstructed .fileAbove)
  if l.ancestors.any taken then throw (.obstructed .fileAtFolder)
  if l.folders.any Location.isLong then throw (.obstructed .longName)
  set { d with folders := (d.folders ++ l.ancestors).eraseDups }

/-- The texts that a log is read from: its own, or those of all files that its path stands for. -/
def texts (d : Directory) (l : Location) (own : String) : Except Fault (List String) :=
  if l.isPattern then
    match d.matching? l with
    | some places => .ok (places.filterMap d.file?)
    | none => .error (.misfit .pattern)
  else .ok [own]

/-- The table of a log, if there is one; no folder may stand in its place. -/
def table? (l : Location) : Writing (Option Frame) := do
  let d ← get
  if Location.isLong l.file || Location.isFar (l.folders ++ [l.file]) then
    throw (.obstructed .longName)
  if Location.isBroken l.file then throw (.obstructed .brokenFile)
  if d.folders.contains l.resolved then throw (.obstructed .folderAtFile)
  match d.file? l.resolved with
  | some text => return some (← ExceptT.mk (pure (d.texts l text >>= Frame.readAll)))
  | none => return none

/-- Records appended to a log; without records nothing is done. A table without columns leaves an
empty file. -/
def write (name : String) (records : List Record) : Writing Unit := do
  if records = [] then return
  let place := Location.ofName name
  makeFolders place
  let new ← ExceptT.mk (pure (Frame.ofRecords records))
  let table ← match ← table? place with
    | some old => ExceptT.mk (pure (old.append new))
    | none => pure new
  let text ← ExceptT.mk (pure table.write)
  modify (put place.resolved text)
  if table.columns.isEmpty then throw (.misfit .noColumns)

/-- Records appended to a log whose name must not be empty; what is no list of records is
refused. -/
def append (name : String) (records : Option (List Record)) : Writing Unit :=
  if name = "" then throw (.violated .tableName)
  else match records with
    | some records => write name records
    | none => throw (.violated .tableRows)

end Directory

end DiagramLayout.Log

import DiagramLayout.Log.Directory
import DiagramLayout.Text.Wildcard

namespace DiagramLayout.Log

open Text

/-- A step of a path with wildcards. -/
inductive Step where
  | name (s : String)
  | marks (ms : List Mark)
  /-- Any number of steps down. -/
  | anywhere
deriving DecidableEq, Repr

namespace Step

/-- The step that a text is; two stars alone are any number of steps. -/
def ofText? (s : String) : Option Step :=
  if s = "**" then some anywhere
  else if isPattern s.toList then (readMarks? none s.toList).map marks
  else some (name s)

/-- Whether a step leads to a name. -/
def accepts : Step → String → Bool
  | name s, t => t == s
  | marks ms, t => matchMarks ms t.toList
  | anywhere, _ => true

end Step

/-- Whether the path of a log has wildcards. -/
def Location.isPattern (l : Location) : Bool :=
  (l.folders ++ [l.file]).any fun step => Text.isPattern step.toList

namespace Directory

/-- What the folder itself and the one above it are as steps; only a pattern that begins with a point
matches them. -/
def dots (ms : List Mark) (folder : List String) : List (List String) :=
  if ms.head? = some (.just '.') then
    [("..", Location.climb (folder ++ [".."])), (".", folder)].filterMap fun (name, place) =>
      if matchMarks ms name.toList then some place else none
  else []

/-- The places that steps lead to from a folder, in the order of their names. -/
def walk (d : Directory) : List Step → List String → List (List String)
  | [], place => [place]
  | .name s :: rest, folder =>
    let next := Location.climb (folder ++ [s])
    if s = "." then d.walk rest folder
    else if s = ".." ∨ next ∈ d.places then d.walk rest next
    else []
  | .marks ms :: rest, folder =>
    let found := (d.children folder).filter fun name => matchMarks ms name.toList
    (dots ms folder ++ found.map fun name => folder ++ [name]).flatMap (d.walk rest)
  | .anywhere :: .anywhere :: rest, folder => d.walk (.anywhere :: rest) folder
  | .anywhere :: step :: rest, folder =>
    (d.below d.places.length folder).flatMap fun place =>
      if step.accepts (place.getLastD "") then d.walk rest place else []
  | [.anywhere], _ => []
termination_by steps => steps.length

/-- The places that the path of a log stands for, unless it is malformed. -/
def matching? (d : Directory) (l : Location) : Option (List (List String)) := do
  let steps := l.folders ++ [l.file]
  let fromRoot := steps.head? = some ""
  let path ← (steps.drop (if fromRoot then 1 else 0)).mapM Step.ofText?
  return d.walk path (if fromRoot then [""] else [])

end Directory

end DiagramLayout.Log

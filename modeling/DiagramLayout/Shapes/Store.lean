import DiagramLayout.Shapes.Path
import DiagramLayout.Keyed
import DiagramLayout.Value

/-!
# A store of shapes

Shapes are properties by name. Paths that are declared varying become variables, in the order of
their declaration. The sequences among the values are lists and texts: components of both are read, and
those of lists are written. Tuples and arrays, whose components are like those of texts, are left out.
-/

namespace DiagramLayout.Shapes

/-- Shapes by name, their properties by name, and the paths that are variables. -/
structure Store (α : Type) where
  shapes : List (String × List (String × Value α)) := []
  varying : List String := []

namespace Store

variable {α : Type}

/-- The value of a property. -/
def property? (s : Store α) (p : Path) : Option (Value α) :=
  (s.shapes.lookup p.shape).bind (·.lookup p.property)

/-- The value at a path. A component is an element of a list or a character of a text. -/
def get (s : Store α) (path : String) : Except Fault (Value α) := do
  let p ← Path.read path
  match s.property? p with
  | none => throw (.unknownPath path)
  | some v =>
    match p.component with
    | none => return v
    | some i =>
      match v.item i with
      | .ok x => return x
      | .error _ => throw (.unknownPath path)

/-- A property put in place, with its shape if that is new. -/
def put (s : Store α) (p : Path) (v : Value α) : Store α :=
  let properties := (s.shapes.lookup p.shape).getD []
  { s with shapes := Keyed.put p.shape (Keyed.put p.property v properties) s.shapes }

/-- A number written at a path. A property is created if needed; a component must be in a list. -/
def set (s : Store α) (path : String) (x : α) : Except Fault (Store α) := do
  let p ← Path.read path
  match p.component with
  | none => return s.put p (.number x)
  | some i =>
    match s.property? p with
    | some (.list vs) =>
      if i < vs.length then return s.put p (.list (vs.set i (.number x)))
      else throw (.unknownPath path)
    | _ => throw (.unknownPath path)

/-- A path made a variable, once, and only if it names no list. -/
def declareOne (s : Store α) (path : String) : Except Fault (Store α) := do
  if path ∈ s.varying then throw (.declaredTwice path)
  if (← s.get path).isList then throw (.vectorDeclared path)
  return { s with varying := s.varying ++ [path] }

/-- Steps from the left until one fails; the store keeps what the steps before it did. -/
def each {β : Type} (step : Store α → β → Except Fault (Store α)) (s : Store α) :
    List β → Except Fault Unit × Store α
  | [] => (.ok (), s)
  | b :: bs =>
    match step s b with
    | .ok s' => each step s' bs
    | .error e => (.error e, s)

/-- Paths made variables. -/
def declare (s : Store α) (paths : List String) : Except Fault Unit × Store α :=
  s.each declareOne paths

/-- Numbers written at paths. -/
def insert (s : Store α) (values : List (String × α)) : Except Fault Unit × Store α :=
  s.each (fun s (path, x) => s.set path x) values

variable [Scalar α]

/-- The values of the variables. -/
def values (s : Store α) : Except Fault (List α) :=
  s.varying.mapM fun path => do (← s.get path).toNumber

/-- The number of a variable. -/
def position? (s : Store α) (path : String) : Option Nat := s.varying.idxOf? path

/-- A path below a list as an argument: a variable or a number. A list there has no further
components that a path could name. -/
def componentArgument (s : Store α) (path : String) : Except Fault (Value α) := do
  match s.position? path with
  | some i => return .varying i
  | none =>
    match ← s.get path with
    | .list [] => return .list []
    | .list _ => throw (.malformedPath (componentPath path 0))
    | v => return .number (← v.toNumber)

/-- A path as the argument of a term: a variable, a number, or a list of those. -/
def argument (s : Store α) (path : String) : Except Fault (Value α) := do
  match s.position? path with
  | some i => return .varying i
  | none =>
    match ← s.get path with
    | .list vs =>
      return .list (← (List.range vs.length).mapM fun i =>
        s.componentArgument (componentPath path i))
    | v => return .number (← v.toNumber)

end Store

end DiagramLayout.Shapes

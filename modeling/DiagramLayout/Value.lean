import DiagramLayout.Scalar
import DiagramLayout.Fault
import DiagramLayout.Text.Quoted

/-!
# Values

The arguments and results of functions: numbers, lists and the like, references to variables, and
handles to the nodes of a graph.
-/

namespace DiagramLayout

/-- A node of the graph with this number. -/
structure Handle where
  graph : Nat
  node : Nat
deriving DecidableEq, Repr

/-- An argument or a result. -/
inductive Value (α : Type) where
  | number (x : α)
  | integer (n : Int)
  | text (s : String)
  | truth (b : Bool)
  | absent
  | list (vs : List (Value α))
  /-- The variable with this position in the vector of variables. -/
  | varying (index : Int)
  | handle (h : Handle)

namespace Value

variable {α : Type}

instance : Inhabited (Value α) := ⟨absent⟩

/-- The word for the form of a value that is neither a number nor a list. -/
def form : Value α → String
  | text _ => "str"
  | varying _ => "Varying"
  | _ => "NoneType"

/-- Whether a value is a list. -/
def isList : Value α → Bool
  | list _ => true
  | _ => false

/-- The graph that a handle belongs to. -/
def graph? : Value α → Option Nat
  | handle h => some h.graph
  | _ => none

/-- The elements of a list; text has its characters. -/
def items : Value α → Except Fault (List (Value α))
  | list vs => .ok vs
  | text s => .ok (s.toList.map fun c => text (String.ofList [c]))
  | _ => .error .wrongForm

/-- The element at a position; a negative position counts from the end. -/
def item (v : Value α) (position : Int) : Except Fault (Value α) := do
  let vs ← v.items
  let i := if position < 0 then position + vs.length else position
  let outside := Fault.outOfRange (if v.isList then .list else .text)
  if i < 0 then throw outside
  match vs[i.toNat]? with
  | some x => return x
  | none => throw outside

variable [Scalar α]

/-- The number that an integer stands for. -/
def ofInteger (n : Int) : Except Fault α :=
  match Scalar.ofInt? n with
  | some x => .ok x
  | none => .error .tooLarge

/-- A value read as a number: truth counts one or zero, and text is read. -/
def toNumber : Value α → Except Fault α
  | number x => .ok x
  | integer n => ofInteger n
  | truth b => .ok (if b then 1.0 else 0.0)
  | text s =>
    match Scalar.ofText? s with
    | some x => .ok x
    | none => .error .unreadable
  | _ => .error .wrongForm

mutual

/-- A value as it stands in the name of a term. -/
def toText : Value α → String
  | number x => Scalar.text x
  | integer n => toString n
  | text s => DiagramLayout.Text.quoted s
  | truth b => if b then "True" else "False"
  | absent => "None"
  | list vs => "[" ++ ", ".intercalate (toTexts vs) ++ "]"
  | varying i => "x[" ++ toString i ++ "]"
  | handle h => "#" ++ toString h.node

/-- The texts of several values. -/
def toTexts : List (Value α) → List String
  | [] => []
  | v :: vs => toText v :: toTexts vs

end

end Value

end DiagramLayout

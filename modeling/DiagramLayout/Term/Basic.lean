import DiagramLayout.Term.Kind
import DiagramLayout.Value

namespace DiagramLayout

/-- A function's name, its arguments and what the term is for. -/
structure Term (α : Type) where
  name : String
  arguments : List (Value α)
  kind : TermKind

namespace Term

variable {α : Type}

/-- A term; its name must not be empty, and its kind is given by a word. -/
def make (name : String) (arguments : List (Value α)) (kind : String) : Except Fault (Term α) := do
  require (name ≠ "") .termName
  match TermKind.ofName? kind with
  | some k => return { name, arguments, kind := k }
  | none => throw (.violated .termKind)

/-- The term as it is reported. -/
def text [Scalar α] (t : Term α) : String :=
  t.name ++ "(" ++ ", ".intercalate (Value.toTexts t.arguments) ++ ")"

end Term

mutual

/-- The variables that a value refers to, from left to right. -/
def Value.indices {α : Type} : Value α → List Int
  | .varying i => [i]
  | .list vs => Value.indicesOfAll vs
  | _ => []

/-- The variables that several values refer to. -/
def Value.indicesOfAll {α : Type} : List (Value α) → List Int
  | [] => []
  | v :: vs => Value.indices v ++ Value.indicesOfAll vs

end

mutual

/-- The least number beyond all graphs that handles in a value belong to. -/
def Value.nextGraph {α : Type} : Value α → Nat
  | .handle h => h.graph + 1
  | .list vs => Value.nextGraphOfAll vs
  | _ => 0

/-- The least number beyond all graphs that handles in several values belong to. -/
def Value.nextGraphOfAll {α : Type} : List (Value α) → Nat
  | [] => 0
  | v :: vs => max (Value.nextGraph v) (Value.nextGraphOfAll vs)

end

/-- The variables that a term refers to, in the order of its arguments. -/
def Term.indices {α : Type} (t : Term α) : List Int := Value.indicesOfAll t.arguments

end DiagramLayout

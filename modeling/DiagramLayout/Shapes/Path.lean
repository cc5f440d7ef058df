import DiagramLayout.Fault
import DiagramLayout.Text.Digit
import DiagramLayout.Text.Parts

/-!
# Paths into a store of shapes

A path names a shape and a property, and may go on with the number of a component:
`shape.property` or `shape.property.component`. A component is written with digits of any script.
-/

namespace DiagramLayout.Shapes

/-- A place in a store. -/
structure Path where
  shape : String
  property : String
  component : Option Nat
deriving DecidableEq, Repr

/-- The place that a path names. A component of digits that have no place value holds no number. -/
def Path.read (path : String) : Except Fault Path :=
  match Text.parts '.' path.toList with
  | [shape, property] => .ok ⟨String.ofList shape, String.ofList property, none⟩
  | [shape, property, component] =>
    if component ≠ [] ∧ component.all Text.isDigit then
      match Text.readNatural? component with
      | some i => .ok ⟨String.ofList shape, String.ofList property, some i⟩
      | none => .error .unreadable
    else .error (.malformedPath path)
  | _ => .error (.malformedPath path)

/-- The path of a component. -/
def componentPath (path : String) (i : Nat) : String := path ++ "." ++ toString i

example : (Path.read "A.center.0").toOption = some ⟨"A", "center", some 0⟩ := by decide +kernel
example : (Path.read "A.r").toOption = some ⟨"A", "r", none⟩ := by decide +kernel
example : (Path.read "A").toOption = none := by decide +kernel

end DiagramLayout.Shapes

namespace DiagramLayout

/-- A number or an array of such. -/
inductive Tensor (α : Type) where
  | entry (x : α)
  | array (parts : List (Tensor α))

namespace Tensor

variable {α : Type}

instance : Inhabited (Tensor α) := ⟨array []⟩

mutual

/-- The lengths of an array level by level; a ragged array has none. -/
def lengths? : Tensor α → Option (List Nat)
  | entry _ => some []
  | array [] => some [0]
  | array (part :: parts) => do
    let lengths ← part.lengths?
    if allHave lengths parts then some ((parts.length + 1) :: lengths) else none

/-- Whether all parts have the same lengths. -/
def allHave (lengths : List Nat) : List (Tensor α) → Bool
  | [] => true
  | part :: parts => part.lengths? == some lengths && allHave lengths parts

end

/-- The greatest number of levels of an array. -/
def levelLimit : Nat := 64

/-- The shape of an array: its lengths level by level. -/
def shape? (t : Tensor α) : Option (List Nat) :=
  t.lengths?.filter fun lengths => decide (lengths.length ≤ levelLimit)

/-- The entries of an array of one level. -/
def flat? : Tensor α → Option (List α)
  | entry _ => none
  | array parts => parts.mapM fun
    | entry x => some x
    | array _ => none

end Tensor

end DiagramLayout

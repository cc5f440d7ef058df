namespace DiagramLayout.Text

/-- The parts of a text between separators; the empty text is one empty part. -/
def parts (separator : Char) : List Char → List (List Char)
  | [] => [[]]
  | c :: cs =>
    match parts separator cs with
    | [] => [[c]]
    | part :: rest => if c = separator then [] :: part :: rest else (c :: part) :: rest

/-- Parts with separators between them. -/
def joinParts (separator : Char) : List (List Char) → List Char
  | [] => []
  | [part] => part
  | part :: rest => part ++ separator :: joinParts separator rest

/-- There is always a part. -/
theorem parts_ne_nil (separator : Char) (cs : List Char) : parts separator cs ≠ [] := by
  cases cs with
  | nil => simp [parts]
  | cons c cs => unfold parts; split <;> (try split) <;> simp

/-- Nothing but separators is lost between the parts. -/
theorem join_parts (separator : Char) (cs : List Char) :
    joinParts separator (parts separator cs) = cs := by
  induction cs with
  | nil => simp [parts, joinParts]
  | cons c cs ih =>
    unfold parts
    split
    · next h => exact absurd h (parts_ne_nil separator cs)
    · next part rest h =>
      rw [h] at ih
      split
      · next hc => subst hc; simp [joinParts, ih]
      · cases rest with
        | nil => simpa [joinParts] using ih
        | cons next rest => simpa [joinParts] using ih

end DiagramLayout.Text

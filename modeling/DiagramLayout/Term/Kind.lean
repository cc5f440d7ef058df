namespace DiagramLayout

/-- What a term is for. -/
inductive TermKind where
  | objective
  | constraint
deriving DecidableEq, Repr

namespace TermKind

/-- The word for a kind. -/
def name : TermKind → String
  | objective => "objective"
  | constraint => "constraint"

/-- The mark of a kind in the key of a term's own energy. -/
def key : TermKind → String
  | objective => "obj"
  | constraint => "constr"

/-- The kind that a word names. -/
def ofName? (word : String) : Option TermKind :=
  [objective, constraint].find? (·.name == word)

end TermKind

end DiagramLayout

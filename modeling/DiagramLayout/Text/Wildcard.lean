namespace DiagramLayout.Text

/-- A mark of a pattern. -/
inductive Mark where
  /-- This character. -/
  | just (c : Char)
  /-- Any one character. -/
  | one
  /-- Any characters, or none. -/
  | many
  /-- A character of one of the ranges. -/
  | within (ranges : List (Char × Char))
  /-- A character of none of the ranges. -/
  | outside (ranges : List (Char × Char))
deriving DecidableEq, Repr

/-- Whether a character lies in one of some ranges, ends included. -/
def inRanges (ranges : List (Char × Char)) (c : Char) : Bool :=
  ranges.any fun r => decide (r.1 ≤ c ∧ c ≤ r.2)

namespace Mark

/-- Whether a mark stands for a character. -/
def accepts : Mark → Char → Bool
  | just d, c => c == d
  | one, _ | many, _ => true
  | within ranges, c => inRanges ranges c
  | outside ranges, c => !inRanges ranges c

/-- The mark that a character outside of brackets is. -/
def ofChar (c : Char) : Mark := if c = '?' then one else if c = '*' then many else just c

/-- The ranges between brackets: two characters with a dash between them, or one alone. -/
def ranges : List Char → List (Char × Char)
  | a :: '-' :: b :: cs => (a, b) :: ranges cs
  | a :: cs => (a, a) :: ranges cs
  | [] => []

end Mark

/-- Whether a text is a pattern rather than a name. -/
def isPattern (cs : List Char) : Bool := cs.any fun c => c == '*' || c == '?' || c == '['

/-- The marks of a pattern. `inside` tells whether open brackets exclude, and holds the characters
after them, the last one first; the first of these may be a closing bracket. Brackets that stay open
and two stars in a row make no pattern. -/
def readMarks? (inside : Option (Bool × List Char)) : List Char → Option (List Mark)
  | [] => if inside.isSome then none else some []
  | c :: cs =>
    match inside with
    | none =>
      if c = '[' then readMarks? (some (false, [])) cs
      else if c = '*' ∧ cs.head? = some '*' then none
      else (readMarks? none cs).map (Mark.ofChar c :: ·)
    | some (excludes, held) =>
      if c = ']' ∧ held ≠ [] then
        let ranges := Mark.ranges held.reverse
        (readMarks? none cs).map ((if excludes then .outside ranges else .within ranges) :: ·)
      else if c = '!' ∧ held = [] ∧ !excludes then readMarks? (some (true, [])) cs
      else readMarks? (some (excludes, c :: held)) cs

/-- Whether a name is of a pattern. -/
def matchMarks : List Mark → List Char → Bool
  | [], cs => cs.isEmpty
  | .many :: ms, cs => (List.range (cs.length + 1)).any fun n => matchMarks ms (cs.drop n)
  | m :: ms, c :: cs => m.accepts c && matchMarks ms cs
  | _ :: _, [] => false

example : (readMarks? none "t[!a-c]*".toList).map (matchMarks · "td.x".toList) = some true := by
  decide +kernel
example : (readMarks? none "t[]]".toList).map (matchMarks · "t]".toList) = some true := by
  decide +kernel
example : readMarks? none "t[.csv".toList = none := by decide +kernel

end DiagramLayout.Text

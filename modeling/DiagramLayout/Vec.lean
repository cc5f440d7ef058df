import DiagramLayout.Scalar

/-!
# Vectors

A vector is the list of its entries. Sums of products run from the first entry to the last, so a
result is the same to the last bit wherever it is computed.
-/

namespace DiagramLayout.Vec

variable {α : Type} [Scalar α]

/-- The inner product, added up from zero and the first entry on. Of single entries it is their
product, which keeps the sign of a zero. -/
def dot (u v : List α) : α :=
  match u.zip v with
  | [p] => p.1 * p.2
  | ps => ps.foldl (fun total p => total + p.1 * p.2) 0.0

/-- Every entry times `c`. -/
def scale (c : α) (v : List α) : List α := v.map (c * ·)

/-- Entry by entry the sum. -/
def add (u v : List α) : List α := u.zipWith (· + ·) v

/-- Entry by entry the difference. -/
def sub (u v : List α) : List α := u.zipWith (· - ·) v

/-- The negative of every entry. -/
def neg (v : List α) : List α := v.map (- ·)

/-- The zero vector of `n` entries. -/
def zeros (n : Nat) : List α := List.replicate n 0.0

/-- The Euclidean length. -/
def norm (v : List α) : α := Scalar.sqrt (dot v v)

/-- Entry by entry, a vector of one entry standing for as many as the other has. None when the
lengths do not fit. -/
def pairwise? (f : α → α → α) (u v : List α) : Option (List α) :=
  if u.length = v.length then some (u.zipWith f v)
  else match u, v with
    | [a], v => some (v.map (f a))
    | u, [b] => some (u.map (f · b))
    | _, _ => none

/-- The inner product of vectors of one length. -/
def dot? (u v : List α) : Option α := if u.length = v.length then some (dot u v) else none

/-- The positions of the entries that are infinite or NaN. -/
def nonFinite (v : List α) : List Nat :=
  v.zipIdx.filterMap fun (x, i) => if Scalar.isFinite x then none else some i

end DiagramLayout.Vec

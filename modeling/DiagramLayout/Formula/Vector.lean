import DiagramLayout.Formula.Basic

/-!
# Sums and vectors

The functions of several numbers. A vector is a list, or any value that has items.
-/

namespace DiagramLayout.Formula

variable {α : Type}

/-- The items of a value that has some. -/
def itemsOf (v : Value α) : Formula α (List (Value α)) := ofExcept v.items

variable [Scalar α]

/-- The sum of a list; the empty sum is zero and a single element stays as it is. -/
def total : List (Value α) → Formula α (Value α)
  | [] => return .number 0.0
  | [v] => return v
  | vs => apply .sum vs

/-- The items of two vectors of one length. -/
def pairsOf (u v : Value α) : Formula α (List (Value α × Value α)) := do
  let us ← itemsOf u
  let vs ← itemsOf v
  demand (us.length == vs.length) .vectorLengths
  return us.zip vs

/-- The sum of the entries. -/
def vectorSum (v : Value α) : Formula α (Value α) := do total (← itemsOf v)

/-- The sum of two vectors, entry by entry. -/
def addVectors (u v : Value α) : Formula α (Value α) := do
  let pairs ← pairsOf u v
  return .list (← pairs.mapM fun (a, b) => apply .add [a, b])

/-- The difference of two vectors, entry by entry. -/
def subVectors (u v : Value α) : Formula α (Value α) := do
  let pairs ← pairsOf u v
  return .list (← pairs.mapM fun (a, b) => apply .sub [a, b])

/-- Every entry times a number. -/
def scaleVector (c v : Value α) : Formula α (Value α) := do
  let vs ← itemsOf v
  return .list (← vs.mapM fun a => apply .mul [c, a])

/-- The inner product. -/
def dotProduct (u v : Value α) : Formula α (Value α) := do
  let pairs ← pairsOf u v
  total (← pairs.mapM fun (a, b) => apply .mul [a, b])

/-- The square of the length. -/
def normSquared (v : Value α) : Formula α (Value α) := do
  let vs ← itemsOf v
  total (← vs.mapM fun a => apply .square [a])

/-- The length. -/
def norm (v : Value α) : Formula α (Value α) := do apply .sqrt [← normSquared v]

/-- The distance of two points. -/
def distance (u v : Value α) : Formula α (Value α) := do norm (← subVectors u v)

/-- The vector divided by its length, which is raised a little to keep it from zero. -/
def normalize (v : Value α) : Formula α (Value α) := do
  let n ← apply .add [← norm v, .number Op.floor]
  let vs ← itemsOf v
  return .list (← vs.mapM fun a => apply .div [a, n])

/-- A vector of the plane turned by a quarter counter-clockwise. -/
def quarterTurn (v : Value α) : Formula α (Value α) := do
  match ← itemsOf v with
  | [a, b] => return .list [← apply .neg [b], a]
  | _ => fault (.violated .planeVector)

/-- A node times itself `count` further times, from the left. -/
def repeatedProduct (base : Value α) : Nat → Formula α (Value α)
  | 0 => return base
  | count + 1 => do
    let shorter ← repeatedProduct base count
    apply .mul [shorter, base]

/-- A power of a node: the square, the square root, or a product of `n` factors. -/
def power (base exponent : Value α) : Formula α (Value α) :=
  if base.graph?.isNone then fault .wrongForm
  else match exponent with
    | .number x =>
      if Scalar.same x 2.0 then apply .square [base]
      else if Scalar.same x 0.5 then apply .sqrt [base]
      else fault .wrongForm
    | .integer n =>
      if n = 2 then apply .square [base]
      else if 1 ≤ n then repeatedProduct base (n.toNat - 1)
      else fault .wrongForm
    | .truth true => return base
    | _ => fault .wrongForm

end DiagramLayout.Formula

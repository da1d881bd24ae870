import BranchAndCut.Scalar

/-! Sparse matrices, compressed along columns or along rows. Whatever the
orientation, the entry at a position is the sum of all values stored for it. -/

namespace BranchAndCut

/-- Which way the stored vectors of a matrix run. -/
inductive Orientation where
  | byColumn
  | byRow
deriving DecidableEq, Repr

/-- A sparse matrix: one list of `(inner index, value)` per outer index, the
inner indices ascending. Stored zeros are kept. -/
structure Matrix (K : Type) where
  numRows : Nat
  numCols : Nat
  orientation : Orientation
  /-- The compressed vectors: columns or rows, by `orientation`. -/
  vectors : Array (List (Nat × K))

namespace Matrix

variable {K : Type} [Scalar K]

/-- Adds a value at an inner index of a compressed vector; a second value for
the same index is added to the first. -/
def addEntry (i : Nat) (v : K) : List (Nat × K) → List (Nat × K)
  | [] => [(i, v)]
  | (k, w) :: rest =>
    if i < k then (i, v) :: (k, w) :: rest
    else if i = k then (k, w + v) :: rest
    else (k, w) :: addEntry i v rest

/-- The matrix whose entry at `(i, j)` is the sum of the values given for it. -/
def ofTriplets (numRows numCols : Nat) (triplets : List (Nat × Nat × K)) : Matrix K where
  numRows := numRows
  numCols := numCols
  orientation := .byColumn
  vectors := triplets.foldl (fun cols (i, j, v) => cols.modify j (addEntry i v))
    (Array.replicate numCols [])

/-- The matrix with the given rows; zeros are not stored. -/
def ofRows (numCols : Nat) (rows : List (List (Nat × K))) : Matrix K :=
  ofTriplets rows.length numCols <| rows.zipIdx.flatMap fun (row, i) =>
    (row.filter fun (_, v) => v != 0).map fun (j, v) => (i, j, v)

/-- The matrix of some triplets, if every position lies inside the shape. -/
def ofTriplets? (numRows numCols : Nat) (triplets : List (Nat × Nat × K)) : Option (Matrix K) :=
  if triplets.all fun (i, j, _) => i < numRows && j < numCols then
    some (ofTriplets numRows numCols triplets)
  else none

/-- The stored entries as `(row, column, value)`, vector by vector. -/
def entries (a : Matrix K) : List (Nat × Nat × K) :=
  a.vectors.toList.zipIdx.flatMap fun (vec, o) => vec.map fun (k, v) =>
    match a.orientation with
    | .byColumn => (k, o, v)
    | .byRow => (o, k, v)

/-- The number of stored entries. -/
def numStored (a : Matrix K) : Nat := a.vectors.foldl (fun n v => n + v.length) 0

/-- The same matrix, compressed along rows. -/
def toRows (a : Matrix K) : Matrix K :=
  match a.orientation with
  | .byRow => a
  | .byColumn =>
    { a with
      orientation := .byRow
      vectors := a.entries.foldl (fun rows (i, j, v) => rows.modify i (· ++ [(j, v)]))
        (Array.replicate a.numRows []) }

/-- `beta * y`, where a factor of zero discards `y` whatever it holds. -/
def scale (beta : K) (y : Array K) : Array K :=
  if beta == 0 then y.map fun _ => 0
  else if beta != 1 then y.map (· * beta)
  else y

/-- `alpha * A * x + beta * y`, the entries added in stored order. There is no
product when a length does not match. -/
@[specialize] def mulVec? (a : Matrix K) (x y : Array K) (alpha beta : K) : Option (Array K) :=
  if a.numCols = x.size ∧ a.numRows = y.size then
    let y := scale beta y
    some <| if alpha != 0 then
      a.entries.foldl (fun y (i, j, v) => y.modify i (· + alpha * v * x.getD j 0)) y
    else y
  else none

/-- `alpha * Aᵀ * x + beta * y` for a matrix compressed along columns, whose
stored vectors are combined with `x` one by one. Stored rows are taken for
columns as well, so there the product is one with the matrix itself, and it is
missing when an index leaves `x` or `y`. -/
@[specialize] def mulVecTranspose? (a : Matrix K) (x y : Array K) (alpha beta : K) :
    Option (Array K) :=
  if a.numRows = x.size ∧ a.numCols = y.size then
    let y := scale beta y
    if alpha != 0 then
      a.vectors.toList.zipIdx.foldlM (fun y (vec, o) =>
        vec.foldlM (fun y (k, v) =>
          if o < y.size ∧ k < x.size then some (y.modify o (· + alpha * v * x.getD k 0))
          else none) y) y
    else some y
  else none

end Matrix

end BranchAndCut

import BranchAndCut.Linear.Matrix

/-! Dense simplex tableaus `B⁻¹ [A | -I]`. Columns `0 .. n` are structural,
columns `n .. n + m` belong to the row slacks `s = A x`, so that the rows of the
tableau are the equations between the two. Every row expresses one basic column. -/

namespace BranchAndCut

/-- A tableau with its basis heading. -/
structure Tableau (K : Type) where
  rows : Array (Array K)
  /-- The basic column of each row; a row not yet assigned has none. -/
  head : Array (Option Nat)

namespace Tableau

variable {K : Type} [Scalar K]

/-- The rows of the matrix `[A | -I]`. The stored vectors of `A` are taken for
its columns; a position below the last row has no place. -/
def constraintRows? (a : Matrix K) : Option (Array (Array K)) :=
  let width := a.numCols + a.numRows
  let zeros := Array.replicate a.numRows (Array.replicate width (0 : K))
  let filled : Option (Array (Array K)) :=
    a.vectors.toList.zipIdx.foldlM (fun rows (vec, j) =>
      vec.foldlM (fun rows (i, v) =>
        if i < a.numRows then some (rows.modify i fun row => row.modify j (· + v))
        else none) rows) zeros
  filled.map fun rows => rows.mapIdx fun i row => row.setIfInBounds (a.numCols + i) (-1)

/-- The entry of a tableau. -/
@[inline] def get (t : Tableau K) (i j : Nat) : K := (t.rows.getD i #[]).getD j 0

/-- The basic column of row `i`. -/
@[inline] def basicColumn (t : Tableau K) (i : Nat) : Nat := (t.head.getD i none).getD 0

/-- The basic columns, row by row. -/
def basis (t : Tableau K) : List Nat := t.head.toList.map (·.getD 0)

/-- The pivot row divided by its pivot entry. -/
@[specialize] def scaledRow (row : Array K) (j : Nat) : Array K :=
  let inv := 1 / row.getD j 0
  (row.map (· * inv)).setIfInBounds j 1

/-- A row from which the multiple of the scaled pivot row is subtracted that
clears column `j`. -/
@[specialize] def clearedRow (row pivotRow : Array K) (j : Nat) : Array K :=
  let f := row.getD j 0
  if f == 0 then row
  else
    (row.zipWith (fun dst src => if src != 0 then dst - f * src else dst) pivotRow).setIfInBounds j 0

/-- Brings column `j` into the basis at row `r`. -/
@[specialize] def pivot (t : Tableau K) (r j : Nat) : Tableau K :=
  let pivotRow := scaledRow (t.rows.getD r #[]) j
  { rows := t.rows.mapIdx fun i row => if i = r then pivotRow else clearedRow row pivotRow j
    head := t.head.setIfInBounds r (some j) }

/-- The unassigned row with the largest entry in column `j`, if one exceeds the
pivot tolerance; the first of several equal ones. -/
@[specialize] def choosePivotRow? (t : Tableau K) (j : Nat) (tolPivot : K) : Option Nat :=
  (List.range t.rows.size).foldl (fun (best : Option Nat × K) r =>
    if (t.head.getD r none).isSome then best
    else
      let v := Scalar.abs (t.get r j)
      if best.2 < v then (some r, v) else best) (none, tolPivot) |>.1

/-- The tableau of the basis given by one column per row, by elimination from
the constraint rows. Missing when the basis is singular up to the tolerance. -/
@[specialize] def factor? (base : Array (Array K)) (basic : List Nat) (tolPivot : K) :
    Option (Tableau K) :=
  if basic.length ≠ base.size then none
  else
    basic.foldlM (fun t j => (t.choosePivotRow? j tolPivot).map fun r => t.pivot r j)
      { rows := base, head := Array.replicate base.size none }

end Tableau

end BranchAndCut

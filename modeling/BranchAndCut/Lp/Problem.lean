import BranchAndCut.Linear.Matrix

/-! Linear programs `min c x` subject to `row_lower ≤ A x ≤ row_upper` and
`col_lower ≤ x ≤ col_upper`, their bases and their solutions. -/

namespace BranchAndCut.Lp

/-- Why a linear program or a request about its basis was refused. -/
inductive Error (K : Type) where
  | shape (rows cols expectedRows expectedCols : Nat)
  | notByColumn
  | rowUpperLength (length expected : Nat)
  | columnBoundLengths (lower upper expected : Nat)
  | costNotFinite
  | matrixNotFinite
  | invalidBounds (lower upper : K)
  | outOfRange (index size : Nat)
  | noBasis
deriving Repr, DecidableEq

/-- The wording of an error, given the text of numbers. -/
def Error.message {K : Type} (text : K → String) : Error K → String
  | .shape r c er ec => s!"Invalid problem: A has shape {r}x{c}, expected {er}x{ec}"
  | .notByColumn => "Invalid problem: A must be stored in CSC format"
  | .rowUpperLength l e => s!"Invalid problem: row_upper has length {l}, expected {e}"
  | .columnBoundLengths l u e =>
    s!"Invalid problem: column bounds have lengths {l}/{u}, expected {e}"
  | .costNotFinite => "Invalid problem: objective has non-finite entries"
  | .matrixNotFinite => "Invalid problem: A has non-finite entries"
  | .invalidBounds l u => "Invalid problem: invalid bound pair [" ++ text l ++ ", " ++ text u ++ "]"
  | .outOfRange i n => s!"Index {i} out of range (size {n})"
  | .noBasis => "No factored basis available"

structure Problem (K : Type) where
  cost : Array K
  a : Matrix K
  rowLower : Array K
  rowUpper : Array K
  colLower : Array K
  colUpper : Array K

namespace Problem

variable {K : Type}

def numCols (p : Problem K) : Nat := p.cost.size

def numRows (p : Problem K) : Nat := p.rowLower.size

variable [Scalar K]

/-- The bound pairs of rows, then columns. -/
def boundPairs (p : Problem K) : List (K × K) :=
  p.rowLower.toList.zip p.rowUpper.toList ++ p.colLower.toList.zip p.colUpper.toList

/-- Whether no value can be meant by the pair: a side is undefined, or is
infinite towards the inside. -/
def badBounds (bounds : K × K) : Bool :=
  Scalar.isNaN bounds.1 || Scalar.isNaN bounds.2 || bounds.1 == Scalar.inf ||
    bounds.2 == Scalar.negInf

/-- Accepts problems whose shapes agree and whose numbers are meaningful. -/
def validate (p : Problem K) : Except (Error K) Unit := do
  let n := p.numCols
  let m := p.numRows
  if p.a.numRows ≠ m ∨ p.a.numCols ≠ n then throw (.shape p.a.numRows p.a.numCols m n)
  if p.a.orientation ≠ .byColumn then throw .notByColumn
  if p.rowUpper.size ≠ m then throw (.rowUpperLength p.rowUpper.size m)
  if p.colLower.size ≠ n ∨ p.colUpper.size ≠ n then
    throw (.columnBoundLengths p.colLower.size p.colUpper.size n)
  if p.cost.any fun v => !Scalar.isFinite v then throw .costNotFinite
  if p.a.entries.any fun (_, _, v) => !Scalar.isFinite v then throw .matrixNotFinite
  match p.boundPairs.find? badBounds with
  | some (lo, hi) => throw (.invalidBounds lo hi)
  | none => pure ()

end Problem

/-- Where a column stands in a basis. -/
inductive ColumnStatus where
  | basic
  | atLower
  | atUpper
  /-- Nonbasic at zero: the column has no finite bound. -/
  | atZero
deriving DecidableEq, Repr, Inhabited

/-- A basis: the status of each structural column and of each row slack. -/
structure Basis where
  cols : List ColumnStatus := []
  rows : List ColumnStatus := []
deriving DecidableEq, Repr

/-- The statuses of all columns, structural ones first. -/
def Basis.all (b : Basis) : List ColumnStatus := b.cols ++ b.rows

def Basis.numBasic (b : Basis) : Nat := b.all.count .basic

structure Settings (K : Type) where
  /-- Most pivots and bound flips of a solve. -/
  maxIter : Nat := 50000
  /-- In milliseconds. -/
  timeLimit : Option Nat := none
  /-- What the clock shows while a solve runs, in milliseconds since its start, by the
  number of the step that looks at it. -/
  clock : Nat → Nat := fun _ => 0
  tolPrimal : K
  tolDual : K
  tolPivot : K
  /-- Pivots after which the tableau is computed afresh. -/
  refactorFreq : Nat := 100
  /-- Degenerate pivots in a row after which the least index enters. -/
  blandAfter : Nat := 50

def Settings.default {K : Type} [Scalar K] : Settings K where
  tolPrimal := 1e-9
  tolDual := 1e-9
  tolPivot := 1e-9

inductive Status where
  | optimal
  | infeasible
  | unbounded
  | iterationLimit
  | timeLimit
  | numericalTrouble
deriving DecidableEq, Repr

def Status.text : Status → String
  | .optimal => "Optimal"
  | .infeasible => "Primal Infeasible"
  | .unbounded => "Unbounded"
  | .iterationLimit => "MaxIters"
  | .timeLimit => "Time Limit"
  | .numericalTrouble => "Numerical Error"

/-- Work done by a solve. -/
structure Effort where
  iters : Nat := 0
  phase1Iters : Nat := 0
  refactors : Nat := 0
  warmStarted : Bool := false
deriving DecidableEq, Repr

structure Solution (K : Type) where
  status : Status
  x : Array K
  rowActivity : Array K
  rowDuals : Array K
  reducedCosts : Array K
  objective : K
  basis : Basis
  effort : Effort

end BranchAndCut.Lp

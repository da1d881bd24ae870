import BranchAndCut.Error
import BranchAndCut.Lp.Problem

/-! The linear relaxation as the search sees it: columns are the variables, rows
come and go by key, and bounds are set in full before every solve. An oracle
acts on a world `σ`. -/

namespace BranchAndCut

inductive RelaxationStatus where
  | optimal
  | infeasible
  | unbounded
  /-- A limit was hit; the result is no valid bound. -/
  | limitReached
  | numericalTrouble
deriving DecidableEq, Repr

/-- The result of one solve. -/
structure Relaxation (K : Type) where
  status : RelaxationStatus
  /-- The objective in the sense of minimisation, without offset. -/
  objective : K
  x : Array K
  /-- The dual value of each row; the reduced cost of column `j` is `cⱼ - ∑ yᵣ aᵣⱼ`. -/
  duals : List (RowKey × K)
  reducedCosts : Array K
  iterations : Nat
  warmStarted : Bool

namespace Relaxation

variable {K : Type} [Scalar K]

/-- A result without a solution. -/
def ofStatus (status : RelaxationStatus) : Relaxation K where
  status := status
  objective := 0 / 0
  x := #[]
  duals := []
  reducedCosts := #[]
  iterations := 0
  warmStarted := false

/-- The dual value of a row, zero for rows outside the relaxation. -/
def dual (r : Relaxation K) (key : RowKey) : K := (r.duals.lookup key).getD 0

end Relaxation

/-- A basis by variable and row key. -/
structure SavedBasis where
  /-- The status of each column, by variable. -/
  cols : List Lp.ColumnStatus
  /-- The status of each row slack. -/
  rows : List (RowKey × Lp.ColumnStatus)
deriving DecidableEq, Repr

/-- A column offered to the relaxation, with its coefficients in rows present. -/
structure NewColumn (K : Type) where
  var : VarId
  /-- The cost in the sense of minimisation. -/
  cost : K
  entries : List (RowKey × K) := []

/-- A column of the relaxation, or the slack of a row. -/
inductive LpColumn where
  | var (v : VarId)
  | slack (key : RowKey)
deriving DecidableEq, Repr

/-- A nonbasic entry of a tableau row. -/
structure TableauEntry (K : Type) where
  col : LpColumn
  coef : K
  status : Lp.ColumnStatus
  value : K

/-- The tableau row `x_basic + ∑ coefⱼ zⱼ = 0` of a basic variable. -/
structure TableauRow (K : Type) where
  basic : VarId
  value : K
  entries : List (TableauEntry K)

/-- A solver of linear relaxations. -/
structure Oracle (K σ : Type) where
  /-- Appends columns, which continue the numbering of the variables. -/
  addColumns : List (NewColumn K) → EStateM (Error K) σ Unit
  /-- Adds rows; a row whose key is present is replaced. -/
  addRows : List (RowKey × Row K) → EStateM (Error K) σ Unit
  /-- Removes rows; unknown keys are ignored. -/
  removeRows : List RowKey → EStateM (Error K) σ Unit
  row? : σ → RowKey → Option (Row K)
  setBounds : Array K → Array K → EStateM (Error K) σ Unit
  /-- Solves from the current basis, if any. -/
  solve : EStateM (Error K) σ (Relaxation K)
  /-- The basis of the last solve. -/
  saveBasis : σ → Option SavedBasis
  /-- Lets the next solve start from a basis. -/
  restoreBasis : SavedBasis → σ → σ
  /-- Lets the next solve start from scratch. -/
  clearBasis : σ → σ
  /-- The tableau rows of those of the variables that are basic in the last solve. -/
  tableauRows : σ → List VarId → Except (Error K) (List (TableauRow K))

/-- Runs an action on a part of a larger world. -/
def onPart {ε σ τ α : Type} (part : τ → σ) (put : τ → σ → τ) (act : EStateM ε σ α) : EStateM ε τ α :=
  fun w => match act (part w) with
    | .ok a s => .ok a (put w s)
    | .error e s => .error e (put w s)

/-- An oracle whose world is a part of a larger one. -/
def Oracle.within {K σ τ : Type} (o : Oracle K σ) (part : τ → σ) (put : τ → σ → τ) : Oracle K τ where
  addColumns cols := onPart part put (o.addColumns cols)
  addRows rows := onPart part put (o.addRows rows)
  removeRows keys := onPart part put (o.removeRows keys)
  row? w := o.row? (part w)
  setBounds lower upper := onPart part put (o.setBounds lower upper)
  solve := onPart part put o.solve
  saveBasis w := o.saveBasis (part w)
  restoreBasis basis w := put w (o.restoreBasis basis (part w))
  clearBasis w := put w (o.clearBasis (part w))
  tableauRows w := o.tableauRows (part w)

end BranchAndCut

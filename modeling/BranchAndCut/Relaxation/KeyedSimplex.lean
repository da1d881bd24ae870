import Std.Data.TreeMap.Basic
import BranchAndCut.Arrays
import BranchAndCut.Lp.Simplex
import BranchAndCut.Relaxation.Oracle

/-! The simplex method as a relaxation oracle. The program is assembled from
the keyed rows for every solve, and the basis of the last solve is carried over
by key: columns and rows new since then enter it nonbasic and basic. -/

namespace BranchAndCut

/-- The rows of constraints come first, in the order of the constraints, then the cuts. -/
instance : Ord RowKey where
  compare
    | .constraint c k, .constraint d l => (compare c d).then (compare k l)
    | .constraint _ _, .cut _ => .lt
    | .cut _, .constraint _ _ => .gt
    | .cut i, .cut j => compare i j

structure KeyedSimplex (K : Type) where
  settings : Lp.Settings K
  cost : Array K := #[]
  lower : Array K := #[]
  upper : Array K := #[]
  rows : Array (RowKey × Row K) := #[]
  /-- The position of each row. -/
  positions : Std.TreeMap RowKey Nat := ∅
  /-- The basis from which the next solve starts. -/
  warm : Option SavedBasis := none
  /-- The basis of the last solve. -/
  lastBasis : Option SavedBasis := none
  /-- The solver of the last solve with its row keys, while nothing has changed since. -/
  last : Option (Lp.Simplex K × Array RowKey) := none

namespace KeyedSimplex

variable {K : Type} [Scalar K]

def numCols (o : KeyedSimplex K) : Nat := o.cost.size

def numRows (o : KeyedSimplex K) : Nat := o.rows.size

def position? (o : KeyedSimplex K) (key : RowKey) : Option Nat := o.positions[key]?

def hasRow (o : KeyedSimplex K) (key : RowKey) : Bool := o.positions.contains key

def row? (o : KeyedSimplex K) (key : RowKey) : Option (Row K) :=
  (o.position? key).bind fun pos => o.rows[pos]?.map Prod.snd

/-- Changes the row at a position. -/
def modifyRow (o : KeyedSimplex K) (pos : Nat) (f : Row K → Row K) : KeyedSimplex K :=
  { o with rows := o.rows.modify pos fun entry => (entry.1, f entry.2) }

/-- Forgets the last solver, whose tableau no longer fits. -/
def changed (o : KeyedSimplex K) : KeyedSimplex K := { o with last := none }

/-- Adds a coefficient of a column to a row, if it is present. -/
def addEntry (v : VarId) (o : KeyedSimplex K) (entry : RowKey × K) : KeyedSimplex K :=
  match o.position? entry.1 with
  | some pos => o.modifyRow pos (·.addCoef v entry.2)
  | none => o

/-- Appends an empty column, free above zero until bounds are set. -/
def pushCost (o : KeyedSimplex K) (cost : K) : KeyedSimplex K :=
  { o with cost := o.cost.push cost, lower := o.lower.push 0, upper := o.upper.push Scalar.inf }

/-- Appends one column. -/
def pushColumn (o : KeyedSimplex K) (col : NewColumn K) : KeyedSimplex K :=
  col.entries.foldl (addEntry col.var) (o.pushCost col.cost)

/-- Appends one column, whose number must be the next one. -/
def addColumn (col : NewColumn K) : EStateM (Error K) (KeyedSimplex K) Unit := do
  let o ← get
  if col.var ≠ o.numCols then throw (.internal (.columnOrder col.var o.numCols))
  set (o.pushColumn col)

/-- Appends columns in order, up to the first that is out of order. -/
def addColumns (cols : List (NewColumn K)) : EStateM (Error K) (KeyedSimplex K) Unit := do
  cols.forM addColumn
  modify changed

/-- Puts a row into the place of the one with its key, or after the last one. -/
def putRow (o : KeyedSimplex K) (entry : RowKey × Row K) : KeyedSimplex K :=
  match o.position? entry.1 with
  | some pos => o.modifyRow pos fun _ => entry.2
  | none => { o with rows := o.rows.push entry, positions := o.positions.insert entry.1 o.rows.size }

/-- Adds or replaces one row. -/
def addRow (entry : RowKey × Row K) : EStateM (Error K) (KeyedSimplex K) Unit := do
  let o ← get
  match entry.2.coefs.find? fun (v, _) => decide (o.numCols ≤ v) with
  | some (v, _) => throw (.internal (.unknownColumn entry.1 v))
  | none => set (o.putRow entry)

/-- Adds rows in order, up to the first that names an unknown column. -/
def addRows (rows : List (RowKey × Row K)) : EStateM (Error K) (KeyedSimplex K) Unit := do
  rows.forM addRow
  modify changed

/-- Removes one row; the last one takes its place. -/
def removeRow (o : KeyedSimplex K) (key : RowKey) : KeyedSimplex K :=
  match o.position? key with
  | none => o
  | some pos =>
    let o := { o with rows := swapRemove o.rows pos, positions := o.positions.erase key }
    match o.rows[pos]? with
    | some (moved, _) => { o with positions := o.positions.insert moved pos }
    | none => o

/-- Removes rows. -/
def removeRows (o : KeyedSimplex K) (keys : List RowKey) : KeyedSimplex K :=
  (keys.foldl removeRow o).changed

def setBounds (lower upper : Array K) : EStateM (Error K) (KeyedSimplex K) Unit := do
  let o ← get
  if lower.size ≠ o.numCols ∨ upper.size ≠ o.numCols then
    throw (.internal (.boundLengths lower.size upper.size o.numCols))
  set { o with lower, upper }.changed

/-- The linear program of the current rows and bounds. -/
def program (o : KeyedSimplex K) : Lp.Problem K where
  cost := o.cost
  a := Matrix.ofRows o.numCols (o.rows.toList.map fun (_, row) => row.coefs)
  rowLower := o.rows.map fun (_, row) => row.lhs
  rowUpper := o.rows.map fun (_, row) => row.rhs
  colLower := o.lower
  colUpper := o.upper

/-- The status of a column that a basis does not know. -/
def newColumnStatus (o : KeyedSimplex K) (j : Nat) : Lp.ColumnStatus :=
  if Scalar.isFinite (o.lower.getD j 0) then .atLower
  else if Scalar.isFinite (o.upper.getD j 0) then .atUpper
  else .atZero

/-- A saved basis in the current order of columns and rows. -/
def basisOf (o : KeyedSimplex K) (saved : SavedBasis) : Lp.Basis where
  cols := (List.range o.numCols).map fun j => (saved.cols[j]?).getD (o.newColumnStatus j)
  rows := o.rows.toList.map fun (key, _) => (saved.rows.lookup key).getD .basic

/-- The verdict of a solve for the search. -/
def statusOf : Lp.Status → RelaxationStatus
  | .optimal => .optimal
  | .infeasible => .infeasible
  | .unbounded => .unbounded
  | .iterationLimit => .limitReached
  | .timeLimit => .limitReached
  | .numericalTrouble => .numericalTrouble

/-- Solves the current program; its basis is the start of the next solve. -/
@[specialize] def solve : EStateM (Error K) (KeyedSimplex K) (Relaxation K) := do
  let o ← get
  match Lp.Simplex.new o.program o.settings with
  | .error e => throw (.relaxation e)
  | .ok solver =>
    let (sol, solver) := solver.solve (o.warm.map o.basisOf)
    let keys := o.rows.map Prod.fst
    let basis : SavedBasis := { cols := sol.basis.cols, rows := keys.toList.zip sol.basis.rows }
    set { o with warm := some basis, lastBasis := some basis, last := some (solver, keys) }
    pure {
      status := statusOf sol.status
      objective := sol.objective
      x := sol.x
      duals := keys.toList.zip sol.rowDuals.toList
      reducedCosts := sol.reducedCosts
      iterations := sol.effort.iters
      warmStarted := sol.effort.warmStarted }

/-- The nonbasic entries of a row of the last tableau, whose columns are named by
the current number of variables. -/
def entriesOf (numCols : Nat) (s : Lp.Simplex K) (keys : Array RowKey) (row : Array K) :
    List (TableauEntry K) :=
  row.toList.zipIdx.filterMap fun (coef, j) =>
    if s.statusOf j != .basic && decide (1e-12 < Scalar.abs coef) then
      some {
        col := if j < numCols then .var j else .slack (keys.getD (j - numCols) (.cut 0))
        coef
        status := s.statusOf j
        value := s.valueOf j }
    else none

/-- The rows of the last tableau whose basic column is one of the variables. -/
def tableauRows (o : KeyedSimplex K) (vars : List VarId) : Except (Error K) (List (TableauRow K)) :=
  match o.last with
  | none => pure []
  | some (s, keys) =>
    match s.tableau with
    | none => throw (.relaxation .noBasis)
    | some t => pure <| t.basis.zipIdx.filterMap fun (h, i) =>
        if h < s.numCols && vars.contains h then
          some { basic := h, value := s.valueOf h, entries := entriesOf o.numCols s keys (t.rows.getD i #[]) }
        else none

/-- The simplex method as an oracle. -/
def oracle : Oracle K (KeyedSimplex K) where
  addColumns := addColumns
  addRows := addRows
  removeRows keys := modify (·.removeRows keys)
  row? := row?
  setBounds := setBounds
  solve := solve
  saveBasis := lastBasis
  restoreBasis basis o := { o with warm := some basis }
  clearBasis o := { o with warm := none }
  tableauRows := tableauRows

end KeyedSimplex

end BranchAndCut

import BranchAndCut.Linear.Tableau
import BranchAndCut.Lp.Problem

/-! The bounded primal simplex method on a dense tableau. The program is taken
as `[A | -I] z = 0` with `z = (x, s)` and bounds on every entry of `z`. Phase 1
minimises the sum of the bound violations of the basic columns, so that a solve
can start from any basis; phase 2 prices by the largest reduced cost, and by
the least index after a run of degenerate pivots. -/

namespace BranchAndCut.Lp

/-- A solver for one linear program; it keeps its last tableau. -/
structure Simplex (K : Type) where
  problem : Problem K
  settings : Settings K
  /-- Costs of all columns, zero for the slacks. -/
  cost : Array K
  lower : Array K
  upper : Array K
  /-- The rows of `[A | -I]`. -/
  base : Array (Array K)
  status : Array ColumnStatus
  values : Array K
  tableau : Option (Tableau K) := none

/-- What stops the entering column. -/
inductive Blocking (K : Type) where
  /-- Its own opposite bound, after the given step. -/
  | ownBound (step : K)
  /-- The basic column of a row, which leaves at one of its bounds. -/
  | row (row : Nat) (step bound : K) (atUpper : Bool)
  | nothing

/-- Counters of the running solve. -/
structure Pace where
  effort : Effort := {}
  sinceRefactor : Nat := 0
  degenerateRun : Nat := 0
  /-- The last verdict was already confirmed on a fresh tableau. -/
  verified : Bool := false

/-- Steps are numbered in their order: after an iteration there is one that goes on, and
another one if that has confirmed a verdict. -/
def Pace.number (pace : Pace) : Nat := 2 * pace.effort.iters + pace.verified.toNat

namespace Simplex

variable {K : Type} [Scalar K]

def numCols (s : Simplex K) : Nat := s.problem.numCols

def numRows (s : Simplex K) : Nat := s.problem.numRows

def width (s : Simplex K) : Nat := s.numCols + s.numRows

/-- A solver for a valid problem. -/
def new (p : Problem K) (settings : Settings K) : Except (Error K) (Simplex K) := do
  p.validate
  let width := p.numCols + p.numRows
  return {
    problem := p
    settings := settings
    cost := p.cost ++ Array.replicate p.numRows 0
    lower := p.colLower ++ p.rowLower
    upper := p.colUpper ++ p.rowUpper
    base := (Tableau.constraintRows? p.a).getD #[]
    status := Array.replicate width .basic
    values := Array.replicate width 0 }

@[inline] def statusOf (s : Simplex K) (j : Nat) : ColumnStatus := s.status.getD j .basic

@[inline] def lowerOf (s : Simplex K) (j : Nat) : K := s.lower.getD j 0

@[inline] def upperOf (s : Simplex K) (j : Nat) : K := s.upper.getD j 0

@[inline] def valueOf (s : Simplex K) (j : Nat) : K := s.values.getD j 0

/-- The basic column of each row. -/
def basicColumns (s : Simplex K) : Except (Error K) (List Nat) :=
  match s.tableau with
  | some t => pure t.basis
  | none => throw .noBasis

/-- Row `i` of the tableau over all columns: `z_b + ∑ row[j] z_j = 0` for its
basic column `b` and the nonbasic `j`. -/
def tableauRow (s : Simplex K) (i : Nat) : Except (Error K) (Array K) :=
  match s.tableau with
  | some t => if i < t.rows.size then pure (t.rows.getD i #[]) else throw (.outOfRange i t.rows.size)
  | none => throw .noBasis

/-- The nonbasic status of a column that has none yet: the first finite bound. -/
def nonbasicDefault (s : Simplex K) (j : Nat) : ColumnStatus :=
  if Scalar.isFinite (s.lowerOf j) then .atLower
  else if Scalar.isFinite (s.upperOf j) then .atUpper
  else .atZero

/-- A given nonbasic status, kept where the bound it names is finite. -/
def sanitizeNonbasic (s : Simplex K) (j : Nat) (st : ColumnStatus) : ColumnStatus :=
  match st with
  | .atLower => if Scalar.isFinite (s.lowerOf j) then .atLower else s.nonbasicDefault j
  | .atUpper => if Scalar.isFinite (s.upperOf j) then .atUpper else s.nonbasicDefault j
  | _ => s.nonbasicDefault j

/-- The value of a nonbasic column. -/
def nonbasicValue (s : Simplex K) (j : Nat) : K :=
  match s.statusOf j with
  | .atLower => s.lowerOf j
  | .atUpper => s.upperOf j
  | _ => 0

/-- Starts from the basis of all slacks. -/
@[specialize] def installSlackBasis (s : Simplex K) : Simplex K :=
  let n := s.numCols
  { s with
    status := s.status.mapIdx fun j _ => if j < n then s.nonbasicDefault j else .basic
    tableau := Tableau.factor? s.base ((List.range s.numRows).map (n + ·)) 0 }

/-- Installs a given basis and says whether it can be used. The statuses of a
basis of the right shape are taken over before it may turn out singular. -/
@[specialize] def installBasis (s : Simplex K) (b : Basis) : Simplex K × Bool :=
  if b.cols.length ≠ s.numCols ∨ b.rows.length ≠ s.numRows ∨ b.numBasic ≠ s.numRows then (s, false)
  else
    let status := b.all.zipIdx.map fun (st, j) =>
      if st = .basic then .basic else s.sanitizeNonbasic j st
    let s := { s with status := status.toArray }
    let basic := (List.range s.width).filter fun j => s.statusOf j == .basic
    match Tableau.factor? s.base basic s.settings.tolPivot with
    | some t => ({ s with tableau := some t }, true)
    | none => (s, false)

/-- The value of a basic column, from its row and the nonbasic values. -/
@[specialize] def basicValue (status : Array ColumnStatus) (values row : Array K) : K :=
  row.size.fold (fun j _ v =>
    let a := row.getD j 0
    if a != 0 && status.getD j .basic != .basic then v - a * values.getD j 0 else v) 0

/-- Recomputes all values from the positions of the nonbasic columns. -/
@[specialize] def recompute (s : Simplex K) : Simplex K :=
  let values := s.values.mapIdx fun j v =>
    if s.statusOf j != .basic then s.nonbasicValue j else v
  match s.tableau with
  | none => { s with values }
  | some t =>
    { s with
      values := t.rows.size.fold (fun i _ values =>
        values.setIfInBounds (t.basicColumn i) (basicValue s.status values (t.rows.getD i #[])))
        values }

/-- Computes the tableau of the current basis afresh, if it is still regular. -/
@[specialize] def refactor? (s : Simplex K) : Option (Simplex K) := do
  let t ← s.tableau
  let t ← Tableau.factor? s.base t.basis s.settings.tolPivot
  return recompute { s with tableau := some t }

/-- The slope of the violation of a basic column: `-1` below its lower bound,
`1` above its upper bound, `0` inside. -/
def violationSlope (s : Simplex K) (j : Nat) : K :=
  let v := s.valueOf j
  let tol := s.settings.tolPrimal * (1 + Scalar.abs v)
  if v < s.lowerOf j - tol then -1
  else if s.upperOf j + tol < v then 1
  else 0

/-- The slopes of the basic columns, row by row. -/
def violationSlopes (s : Simplex K) (t : Tableau K) : Array K :=
  (Array.range t.rows.size).map fun i => s.violationSlope (t.basicColumn i)

/-- Reduced costs of all columns for the given costs of the basic ones. -/
@[specialize] def pricedColumns (t : Tableau K) (costs basicCosts : Array K) : Array K :=
  t.rows.size.fold (fun i _ d =>
    let cb := basicCosts.getD i 0
    if cb == 0 then d else d.zipWith (fun d a => d - cb * a) (t.rows.getD i #[])) costs

/-- The direction in which moving a nonbasic column improves, if either does. -/
def improvingDirection? (s : Simplex K) (j : Nat) (d : K) : Option K :=
  let st := s.statusOf j
  let tol := s.settings.tolDual
  if st = .basic || s.lowerOf j == s.upperOf j then none
  else
    match st with
    | .basic => none
    | .atLower => if d < -tol then some 1 else none
    | .atUpper => if tol < d then some (-1) else none
    | .atZero => if d < -tol then some 1 else if tol < d then some (-1) else none

/-- The first improving column. -/
@[specialize] def firstImproving? (s : Simplex K) (d : Array K) : Option (Nat × K) :=
  (List.range d.size).findSome? fun j => (s.improvingDirection? j (d.getD j 0)).map fun dir => (j, dir)

/-- The improving column of the largest reduced cost; the first of equal ones. -/
@[specialize] def steepestImproving? (s : Simplex K) (d : Array K) : Option (Nat × K) :=
  d.size.fold (fun j _ (best : Option (Nat × K) × K) =>
    let dj := d.getD j 0
    match s.improvingDirection? j dj with
    | none => best
    | some dir => if best.2 < Scalar.abs dj then (some (j, dir), Scalar.abs dj) else best)
    (none, 0) |>.1

/-- A row that blocks the entering column. -/
structure Blocker (K : Type) where
  row : Nat
  bound : K
  atUpper : Bool
  alpha : K

/-- The step after which the basic column `col` reaches a bound when it moves
as `v - alpha * t`, with that bound. In phase 1 a column outside its bounds
blocks only where it becomes feasible. -/
@[specialize] def blockingStep? (s : Simplex K) (phase1 : Bool) (col : Nat) (alpha : K) :
    Option (K × K × Bool) :=
  let v := s.valueOf col
  let lo := s.lowerOf col
  let hi := s.upperOf col
  let slack := s.settings.tolPrimal * (1 + Scalar.abs v)
  if (0 : K) < alpha then
    if phase1 && hi + slack < v then some ((v - hi) / alpha, hi, true)
    else if phase1 && v < lo - slack then none
    else if Scalar.isFinite lo then some (Scalar.max ((v - lo) / alpha) 0, lo, false)
    else none
  else
    if phase1 && v < lo - slack then some ((lo - v) / -alpha, lo, false)
    else if phase1 && hi + slack < v then none
    else if Scalar.isFinite hi then some (Scalar.max ((hi - v) / -alpha) 0, hi, true)
    else none

/-- Compares row `i` with the first row to block so far. Of rows that block at
about the same step the largest pivot wins, or the least basic column under the
least-index rule. -/
@[specialize] def blockRow (s : Simplex K) (t : Tableau K) (j : Nat) (dir : K)
    (phase1 bland : Bool) (i : Nat) (acc : Option (Blocker K) × K) : Option (Blocker K) × K :=
  let (best, bestStep) := acc
  let eps : K := 1e-12
  let alpha := t.get i j * dir
  if Scalar.abs alpha ≤ s.settings.tolPivot then acc
  else
    let col := t.basicColumn i
    match s.blockingStep? phase1 col alpha with
    | none => acc
    | some (step, bound, atUpper) =>
      let better :=
        match best with
        | none => true
        | some b =>
          if step < bestStep - eps then true
          else if step ≤ bestStep + eps then
            if bland then decide (col < t.basicColumn b.row)
            else decide (Scalar.abs b.alpha < Scalar.abs alpha)
          else false
      if better then (some ⟨i, bound, atUpper, alpha⟩, Scalar.min step bestStep) else acc

/-- The first row to block column `j`, with the step after which it does. -/
@[specialize] def firstBlocker (s : Simplex K) (t : Tableau K) (j : Nat) (dir : K)
    (phase1 bland : Bool) : Option (Blocker K) × K :=
  t.rows.size.fold (fun i _ acc => s.blockRow t j dir phase1 bland i acc) (none, Scalar.inf)

/-- The first thing to stop column `j` on its way in direction `dir`. -/
@[specialize] def ratioTest (s : Simplex K) (t : Tableau K) (j : Nat) (dir : K)
    (phase1 bland : Bool) : Blocking K :=
  let range := s.upperOf j - s.lowerOf j
  let (best, bestStep) := s.firstBlocker t j dir phase1 bland
  if Scalar.isFinite range && decide (range ≤ bestStep) then .ownBound range
  else
    match best with
    | some b => .row b.row bestStep b.bound b.atUpper
    | none => .nothing

/-- Moves column `j` by `dir * step` and the basic columns with it. -/
@[specialize] def shift (s : Simplex K) (t : Tableau K) (j : Nat) (dir step : K) : Simplex K :=
  if step == 0 then s
  else
    let values := s.values.modify j (· + dir * step)
    { s with
      values := t.rows.size.fold (fun i _ values =>
        let a := t.get i j
        if a != 0 then values.modify (t.basicColumn i) (· - a * dir * step) else values) values }

/-- Exchanges the basic column of row `r`, which leaves at `bound`, for `j`. -/
@[specialize] def exchange (s : Simplex K) (t : Tableau K) (r j : Nat) (bound : K)
    (atUpper : Bool) : Simplex K :=
  let leaving := t.basicColumn r
  let left : ColumnStatus :=
    if atUpper && s.lowerOf leaving != s.upperOf leaving then .atUpper else .atLower
  { s with
    tableau := some (t.pivot r j)
    status := (s.status.setIfInBounds j .basic).setIfInBounds leaving left
    values := s.values.setIfInBounds leaving bound }

/-- Moves a nonbasic column to its opposite bound. -/
@[specialize] def flip (s : Simplex K) (t : Tableau K) (j : Nat) (dir step : K) : Simplex K :=
  let s := s.shift t j dir step
  let s := { s with status := s.status.setIfInBounds j (if (0 : K) < dir then .atUpper else .atLower) }
  { s with values := s.values.setIfInBounds j (s.nonbasicValue j) }

/-- The solver and its counters after a step, or the verdict that ends the solve. -/
abbrev Outcome (K : Type) := Simplex K × Pace × Option Status

/-- Replaces the tableau by a fresh one and counts that. -/
@[specialize] def refresh? (s : Simplex K) (pace : Pace) : Option (Simplex K × Pace) :=
  s.refactor?.map fun s =>
    (s, { pace with
          sinceRefactor := 0
          effort := { pace.effort with refactors := pace.effort.refactors + 1 } })

/-- Continues with an entering column: flips it, or exchanges it for a basic
one. Without anything to stop it the program is unbounded, or phase 1, which
cannot be, has drifted. -/
@[specialize] def advance (s : Simplex K) (t : Tableau K) (pace : Pace) (j : Nat) (dir : K)
    (phase1 bland : Bool) : Outcome K :=
  let blocking := s.ratioTest t j dir phase1 bland
  let pace := { pace with
    verified := false
    effort := { pace.effort with
      iters := pace.effort.iters + 1
      phase1Iters := pace.effort.phase1Iters + (if phase1 then 1 else 0) } }
  match blocking with
  | .nothing =>
    if phase1 then
      match if pace.sinceRefactor > 0 then s.refresh? pace else none with
      | some (s, pace) => (s, pace, none)
      | none => (s, pace, some .numericalTrouble)
    else (s, pace, some .unbounded)
  | .ownBound step => (s.flip t j dir step, { pace with degenerateRun := 0 }, none)
  | .row r step bound atUpper =>
    ((s.shift t j dir step).exchange t r j bound atUpper,
      { pace with
        sinceRefactor := pace.sinceRefactor + 1
        degenerateRun := if step ≤ 1e-12 then pace.degenerateRun + 1 else 0 },
      none)

/-- What pricing finds. -/
structure Pricing (K : Type) where
  /-- Basic columns violate their bounds. -/
  phase1 : Bool
  /-- The least-index rule is in force. -/
  bland : Bool
  /-- The column to enter, and the direction in which it improves. -/
  entering? : Option (Nat × K)

/-- Looks for a column to enter. -/
@[specialize] def pricing (s : Simplex K) (t : Tableau K) (pace : Pace) : Pricing K :=
  let slopes := s.violationSlopes t
  let phase1 := slopes.any (· != 0)
  let d :=
    if phase1 then pricedColumns t (Array.replicate s.width 0) slopes
    else
      pricedColumns t s.cost ((Array.range t.rows.size).map fun i => s.cost.getD (t.basicColumn i) 0)
  let bland := decide (s.settings.blandAfter ≤ pace.degenerateRun)
  { phase1
    bland
    entering? := if bland then s.firstImproving? d else s.steepestImproving? d }

/-- Prices the columns and moves on. Without an improving column the verdict is
reached, after one confirmation on a fresh tableau. -/
@[specialize] def price (s : Simplex K) (t : Tableau K) (pace : Pace) : Outcome K :=
  let priced := s.pricing t pace
  match priced.entering? with
  | some (j, dir) => s.advance t pace j dir priced.phase1 priced.bland
  | none =>
    if pace.sinceRefactor > 0 && !pace.verified then
      match s.refresh? pace with
      | some (s, pace) => (s, { pace with verified := true }, none)
      | none => (s, pace, some .numericalTrouble)
    else (s, pace, some (if priced.phase1 then .infeasible else .optimal))

/-- The clock is looked at every 64 iterations. -/
def timeIsUp (s : Simplex K) (pace : Pace) : Bool :=
  pace.effort.iters % 64 == 0 && s.settings.timeLimit.any (· ≤ s.settings.clock pace.number)

/-- Replaces the tableau if enough columns have been exchanged since that was last done. -/
@[specialize] def prepared? (s : Simplex K) (pace : Pace) : Option (Simplex K × Pace) :=
  if s.settings.refactorFreq ≤ pace.sinceRefactor then s.refresh? pace else some (s, pace)

/-- One step of the method. -/
@[specialize] def step (s : Simplex K) (pace : Pace) : Outcome K :=
  if s.settings.maxIter ≤ pace.effort.iters then (s, pace, some .iterationLimit)
  else if s.timeIsUp pace then (s, pace, some .timeLimit)
  else
    match s.prepared? pace with
    | none => (s, pace, some .numericalTrouble)
    | some (s, pace) =>
      match s.tableau with
      | none => (s, pace, some .numericalTrouble)
      | some t => s.price t pace

/-- Steps until a verdict. A step counts an iteration or confirms a verdict,
and never confirms twice in a row, so `2 * maxIter + 2` steps are enough. -/
@[specialize] def iterate (s : Simplex K) (pace : Pace) : Nat → Simplex K × Pace × Status
  | 0 => (s, pace, .iterationLimit)
  | fuel + 1 =>
    match s.step pace with
    | (s, pace, some status) => (s, pace, status)
    | (s, pace, none) => iterate s pace fuel

/-- The dual value of each row. -/
@[specialize] def rowDuals (s : Simplex K) : Array K :=
  let zeros := Array.replicate s.numRows (0 : K)
  match s.tableau with
  | none => zeros
  | some t =>
    t.rows.size.fold (fun i _ duals =>
      let cb := s.cost.getD (t.basicColumn i) 0
      if cb == 0 then duals
      else
        let row := t.rows.getD i #[]
        duals.mapIdx fun r d => d - cb * row.getD (s.numCols + r) 0) zeros

/-- The solution read off the current state. -/
@[specialize] def solution (s : Simplex K) (status : Status) (effort : Effort) : Solution K :=
  let n := s.numCols
  let x := s.values.extract 0 n
  let duals := s.rowDuals
  let reduced := (s.problem.a.mulVecTranspose? duals s.problem.cost (-1) 1).getD s.problem.cost
  { status
    x
    rowActivity := (s.problem.a.mulVec? x (Array.replicate s.numRows 0) 1 0).getD #[]
    rowDuals := duals
    reducedCosts := reduced.mapIdx fun j d => if s.statusOf j = .basic then 0 else d
    objective := Scalar.sum (s.problem.cost.toList.zipWith (· * ·) x.toList)
    basis := { cols := (s.status.extract 0 n).toList, rows := (s.status.extract n s.width).toList }
    effort }

/-- The state from which a solve starts: that of the given basis if it can be
used, else that of the slack basis; and whether the given one is. -/
@[specialize] def start (s : Simplex K) (warmStart : Option Basis) : Simplex K × Bool :=
  let (s, warm) :=
    match warmStart with
    | some b => s.installBasis b
    | none => (s, false)
  if warm then (s.recompute, true) else (s.installSlackBasis.recompute, false)

/-- Solves from the given basis if it can be used, else from the slack basis. -/
@[specialize] def solve (s : Simplex K) (warmStart : Option Basis) : Solution K × Simplex K :=
  let (s, warm) := s.start warmStart
  let (s, pace, status) :=
    iterate s { effort := { warmStarted := warm } } (2 * s.settings.maxIter + 2)
  (s.solution status pace.effort, s)

end Simplex

/-- Solves a program from a given basis, if any, and from the slack basis otherwise. -/
def solve {K : Type} [Scalar K] (p : Problem K) (settings : Settings K)
    (warmStart : Option Basis := none) : Except (Error K) (Solution K) := do
  let s ← Simplex.new p settings
  return (s.solve warmStart).1

end BranchAndCut.Lp

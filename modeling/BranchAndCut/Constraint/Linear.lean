import BranchAndCut.Constraint.Lock
import BranchAndCut.Cut
import BranchAndCut.Domain.Deduction

/-! Linear constraints. Bounds follow from the activity of a row: with `m` the
least activity of the other terms, `aⱼ xⱼ ≤ rhs - m`. A lazy constraint stays out
of the relaxation until a solution violates it. A modifiable one takes
coefficients of priced columns and is never propagated. -/

namespace BranchAndCut

structure LinearConstraint (K : Type) where
  name : String
  row : Row K
  isLazy : Bool := false
  modifiable : Bool := false
  deleted : Bool := false

/-- The family of linear constraints. -/
structure LinearFamily (K : Type) where
  conss : Array (LinearConstraint K) := #[]

/-- The activity of a row over the current domain: finite parts, and numbers of
infinite terms. -/
structure Activity (K : Type) where
  min : K
  minInf : Nat := 0
  max : K
  maxInf : Nat := 0

namespace LinearFamily

variable {K : Type} [Scalar K]

/-- The least and the greatest value of a term. -/
@[inline] def termRange (d : Deduction K) (v : VarId) (a : K) : K × K :=
  if (0 : K) < a then (a * d.lb v, a * d.ub v) else (a * d.ub v, a * d.lb v)

/-- Adds the range of a term to the activity. -/
@[inline] def addRange (act : Activity K) (range : K × K) : Activity K :=
  let act := if Scalar.isFinite range.1 then { act with min := act.min + range.1 }
    else { act with minInf := act.minInf + 1 }
  if Scalar.isFinite range.2 then { act with max := act.max + range.2 }
  else { act with maxInf := act.maxInf + 1 }

@[specialize] def activity (row : Row K) (d : Deduction K) : Activity K :=
  row.coefs.foldl (fun act (v, a) => addRange act (termRange d v a)) { min := 0, max := 0 }

/-- The finite part of the activity of the other terms, if none of them is
infinite. -/
@[inline] def residual? (total : K) (infinite : Nat) (term : K) : Option K :=
  if Scalar.isFinite term then (if infinite = 0 then some (total - term) else none)
  else if infinite = 1 then some total
  else none

/-- Whether moving a bound by `gain` is too little for a continuous variable. -/
@[inline] def tooSmall (d : Deduction K) (v : VarId) (bound gain : K) : Bool :=
  !d.isIntegral v && Scalar.isFinite bound && decide (gain < 1e-3 * Scalar.max (Scalar.abs bound) 1)

/-- Lowers an upper bound, unless the improvement is negligible. -/
def tightenUpper (g : ImplicationGraph K) (reason : Reason) (d : Deduction K) (v : VarId)
    (bound : K) : Tightening × Deduction K :=
  if tooSmall d v (d.ub v) (d.ub v - bound) then (.redundant, d)
  else Deduction.tighten g reason d v .upper bound

/-- Raises a lower bound, unless the improvement is negligible. -/
def tightenLower (g : ImplicationGraph K) (reason : Reason) (d : Deduction K) (v : VarId)
    (bound : K) : Tightening × Deduction K :=
  if tooSmall d v (d.lb v) (bound - d.lb v) then (.redundant, d)
  else Deduction.tighten g reason d v .lower bound

/-- Tightens by the right-hand side: `a x ≤ rhs - residual`. -/
def propagateRhs (g : ImplicationGraph K) (reason : Reason) (row : Row K) (act : Activity K)
    (d : Deduction K) (v : VarId) (a lo : K) : Tightening × Deduction K :=
  if Scalar.isFinite row.rhs then
    match residual? act.min act.minInf lo with
    | some res =>
      let bound := (row.rhs - res) / a
      if (0 : K) < a then tightenUpper g reason d v bound else tightenLower g reason d v bound
    | none => (.redundant, d)
  else (.redundant, d)

/-- Tightens by the left-hand side: `a x ≥ lhs - residual`. -/
def propagateLhs (g : ImplicationGraph K) (reason : Reason) (row : Row K) (act : Activity K)
    (d : Deduction K) (v : VarId) (a hi : K) : Tightening × Deduction K :=
  if Scalar.isFinite row.lhs then
    match residual? act.max act.maxInf hi with
    | some res =>
      let bound := (row.lhs - res) / a
      if (0 : K) < a then tightenLower g reason d v bound else tightenUpper g reason d v bound
    | none => (.redundant, d)
  else (.redundant, d)

/-- Tightens by every term of a row in turn, against the activity before the
first of them. Answers whether all was feasible. -/
def propagateTerms (g : ImplicationGraph K) (reason : Reason) (row : Row K) (act : Activity K)
    (d : Deduction K) : List (VarId × K) → Bool × Deduction K
  | [] => (true, d)
  | (v, a) :: rest =>
    let (lo, hi) := termRange d v a
    match propagateRhs g reason row act d v a lo with
    | (.infeasible, d) => (false, d)
    | (_, d) =>
      match propagateLhs g reason row act d v a hi with
      | (.infeasible, d) => (false, d)
      | (_, d) => propagateTerms g reason row act d rest

/-- The slack allowed at a side of a row. -/
@[inline] def sideTol (tol side : K) : K := tol * Scalar.max (Scalar.abs side) 1

/-- Propagates one row. Answers whether the domain may still hold a solution of it. -/
def propagateRow (g : ImplicationGraph K) (reason : Reason) (row : Row K) (d : Deduction K) :
    Bool × Deduction K :=
  let act := activity row d
  if act.minInf = 0 && decide (row.rhs + sideTol 1e-9 row.rhs < act.min) then (false, d)
  else if act.maxInf = 0 && decide (act.max < row.lhs - sideTol 1e-9 row.lhs) then (false, d)
  else propagateTerms g reason row act d row.coefs

/-- Propagates constraints in order, up to the first cutoff. -/
def propagateAll (f : LinearFamily K) (g : ImplicationGraph K) (reason : Reason)
    (d : Deduction K) : List Nat → Bool × Deduction K
  | [] => (true, d)
  | c :: rest =>
    match f.conss[c]? with
    | none => propagateAll f g reason d rest
    | some cons =>
      if cons.deleted || cons.modifiable then propagateAll f g reason d rest
      else
        match propagateRow g reason cons.row d with
        | (true, d) => propagateAll f g reason d rest
        | (false, d) => (false, d)

/-- Propagates the given constraints. -/
def propagate (f : LinearFamily K) (g : ImplicationGraph K) (reason : Reason) (d : Deduction K)
    (conss : List Nat) : Verdict × Deduction K :=
  match f.propagateAll g reason d conss with
  | (true, after) => (d.verdict after, after)
  | (false, after) => (.cutoff, after)

/-- The rows of violated lazy constraints. -/
def separate (f : LinearFamily K) (conss : List Nat) (p : Fractional K) : List (Cut K) :=
  conss.filterMap fun c => f.conss[c]?.bind fun cons =>
    if cons.isLazy && !cons.deleted && decide (p.feasTol < cons.row.violation p.x) then
      some { name := cons.name, row := cons.row, isLocal := false, source := "linear" }
    else none

/-- Whether a point lies outside the sides of a row by more than the tolerance. -/
def violates (row : Row K) (x : Array K) (tol : K) : Bool :=
  let act := row.activity x
  decide (row.rhs + sideTol tol row.rhs < act) || decide (act < row.lhs - sideTol tol row.lhs)

/-- The violated constraints among the given ones. -/
def check (f : LinearFamily K) (conss : List Nat) (x : Array K) (tol : K) : List Nat :=
  conss.filter fun c => match f.conss[c]? with
    | some cons => !cons.deleted && violates cons.row x tol
    | none => false

/-- A variable is locked towards the finite sides of the row. -/
def rowLocks (row : Row K) : List Lock :=
  row.coefs.map fun (v, a) =>
    let lhs := Scalar.isFinite row.lhs
    let rhs := Scalar.isFinite row.rhs
    if (0 : K) < a then { var := v, down := lhs, up := rhs } else { var := v, down := rhs, up := lhs }

def locks (f : LinearFamily K) (c : Nat) : List Lock :=
  match f.conss[c]? with
  | some cons => rowLocks cons.row
  | none => []

/-- The rows that a constraint puts into the relaxation at once. -/
def initialRows (f : LinearFamily K) (c : Nat) : List (Row K) :=
  match f.conss[c]? with
  | some cons => if cons.isLazy || cons.deleted then [] else [cons.row]
  | none => []

/-- Takes a row over as a constraint; the answer is its index. -/
def addRow (f : LinearFamily K) (name : String) (row : Row K) (isLazy : Bool) :
    Nat × LinearFamily K :=
  (f.conss.size, { f with conss := f.conss.push { name, row, isLazy } })

def isModifiable (f : LinearFamily K) (c : Nat) : Bool :=
  match f.conss[c]? with
  | some cons => cons.modifiable && !cons.deleted
  | none => false

/-- Opens a constraint to priced columns. -/
def setModifiable (f : LinearFamily K) (c : Nat) : Except (Error K) (LinearFamily K) :=
  match f.conss[c]? with
  | none => throw (.internal (.noLinearConstraint c))
  | some cons =>
    if cons.isLazy then throw (.invalid (.lazyModifiable cons.name))
    else pure { f with conss := f.conss.setIfInBounds c { cons with modifiable := true } }

/-- Adds the coefficient of a priced column. -/
def addCoefficient (f : LinearFamily K) (c : Nat) (v : VarId) (a : K) :
    Except (Error K) (LinearFamily K) :=
  match f.conss[c]? with
  | none => throw (.plugin "linear" (.noConstraint c))
  | some cons =>
    if !cons.modifiable then throw (.plugin "linear" (.notModifiable cons.name))
    else pure { f with conss := f.conss.setIfInBounds c { cons with row := cons.row.addCoef v a } }

/-- Deletes a constraint; its coefficients are dropped. -/
def delete (f : LinearFamily K) (c : Nat) : LinearFamily K :=
  { f with conss := f.conss.modify c fun cons =>
      { cons with deleted := true, row := { cons.row with coefs := [] } } }

end LinearFamily

end BranchAndCut

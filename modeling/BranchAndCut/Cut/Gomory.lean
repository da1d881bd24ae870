import BranchAndCut.Cut
import BranchAndCut.Relaxation.Oracle

/-! Gomory mixed-integer cuts. The tableau row of a basic integer variable with
a fractional value is written over the distances `tⱼ ≥ 0` of the nonbasic columns
from their bounds, `x + ∑ aⱼ tⱼ = β`, and the inequality `∑ g(aⱼ) tⱼ ≥ 1` is
mapped back to the variables. The cuts rest on local bounds, so that below the
root they are local. -/

namespace BranchAndCut

structure GomorySettings (K : Type) where
  /-- Most cuts of a call. -/
  maxCuts : Nat := 50
  /-- The deepest level at which cuts are made. -/
  maxDepth : Nat := 0
  /-- Rows are used whose fraction is this far from an integer. -/
  minFrac : K
  /-- Greatest ratio of the coefficients of a cut. -/
  maxDynamism : K

def GomorySettings.default {K : Type} [Scalar K] : GomorySettings K where
  minFrac := 0.01
  maxDynamism := 1e6

namespace Gomory

variable {K : Type} [Scalar K]

/-- Whether a fraction lies in the window of usable ones. -/
def usable (s : GomorySettings K) (f : K) : Bool := decide (s.minFrac ≤ f) && decide (f ≤ 1 - s.minFrac)

/-- The coefficient of a distance in the cut. -/
def weight (f0 a : K) (integral : Bool) : K :=
  if integral then
    let f := Scalar.frac a
    if f ≤ f0 then f / f0 else (1 - f) / (1 - f0)
  else if (0 : K) ≤ a then a / f0
  else -a / (1 - f0)

/-- Whether the distance of a column from its bound is an integer. -/
def isIntegralEntry (d : Domains K) (e : TableauEntry K) : Bool :=
  match e.col with
  | .var v => d.isIntegral v && decide (Scalar.abs (e.value - Scalar.round e.value) < 1e-9)
  | .slack _ => false

/-- A cut under construction: dense coefficients and the right-hand side. -/
structure Draft (K : Type) where
  dense : Array K
  rhs : K

/-- Adds an entry of the tableau row to the cut. A column that is at no bound,
or a row that is not there, spoils it. -/
def withEntry (d : Domains K) (rowOf : RowKey → Option (Row K)) (f0 : K) (draft : Draft K)
    (e : TableauEntry K) : Option (Draft K) := do
  let (a, sign) ← match e.status with
    | .atLower => some (e.coef, (1 : K))
    | .atUpper => some (-e.coef, (-1 : K))
    | _ => none
  if !Scalar.isFinite e.value then none
  let g := weight f0 a (isIntegralEntry d e)
  if g == 0 then return draft
  let coef := g * sign
  let rhs := draft.rhs + coef * e.value
  match e.col with
  | .var v => return { dense := draft.dense.modify v (· + coef), rhs }
  | .slack key =>
    let row ← rowOf key
    return { dense := row.coefs.foldl (fun dense (v, a) => dense.modify v (· + coef * a)) draft.dense, rhs }

/-- Drops tiny coefficients, and lowers the right-hand side by the most that they
can contribute. Nothing is left of a cut for which that is infinite. -/
def dropTiny? (d : Domains K) (draft : Draft K) : Option (List (VarId × K) × K) :=
  let step (acc : List (VarId × K) × K) (entry : K × VarId) : Option (List (VarId × K) × K) :=
    let (c, v) := entry
    if Scalar.abs c < 1e-9 then
      if c != 0 then
        let worst := if (0 : K) < c then c * d.ub v else c * d.lb v
        if Scalar.isFinite worst then some (acc.1, acc.2 - worst) else none
      else some acc
    else some ((v, c) :: acc.1, acc.2)
  (draft.dense.toList.zipIdx.foldlM step ([], draft.rhs)).map fun (coefs, rhs) => (coefs.reverse, rhs)

/-- The cut of one tableau row, if the row is usable. -/
def cutOf? (s : GomorySettings K) (d : Domains K) (rowOf : RowKey → Option (Row K))
    (row : TableauRow K) : Option (Row K) := do
  let f0 := Scalar.frac row.value
  if decide (f0 < s.minFrac) || decide (1 - s.minFrac < f0) then none
  let draft ← row.entries.foldlM (withEntry d rowOf f0)
    { dense := Array.replicate d.numVars 0, rhs := 1 }
  let (coefs, rhs) ← dropTiny? d draft
  if coefs.isEmpty || !Scalar.isFinite rhs then none
  let least := coefs.foldl (fun m (_, c) => Scalar.min m (Scalar.abs c)) Scalar.inf
  let greatest := coefs.foldl (fun m (_, c) => Scalar.max m (Scalar.abs c)) 0
  if s.maxDynamism < greatest / least then none
  return Row.greaterEqual coefs rhs

/-- The variables whose rows are worth a cut, the most fractional first. -/
def sources (s : GomorySettings K) (p : Fractional K) : List VarId :=
  let candidates := (List.range p.domains.numVars).filterMap fun v =>
    if p.domains.isIntegral v && !p.domains.isFixed v then
      let f := Scalar.frac (p.x.getD v 0)
      if usable s f then some (v, Scalar.abs (f - 0.5)) else none
    else none
  (candidates.mergeSort fun a b => Scalar.totalOrder a.2 b.2 != .gt).map Prod.fst

/-- The cuts of the fractional basic variables at a relaxation solution. -/
def separate (s : GomorySettings K) (p : Fractional K)
    (tableauRows : List VarId → Except (Error K) (List (TableauRow K)))
    (rowOf : RowKey → Option (Row K)) : Except (Error K) (List (Cut K)) := do
  if s.maxDepth < p.depth || s.maxCuts == 0 then return []
  let vars := sources s p
  if vars.isEmpty then return []
  let rows ← tableauRows vars
  let place (r : TableauRow K) : Nat := vars.idxOf r.basic
  let rows := rows.mergeSort fun a b => decide (place a ≤ place b)
  let cuts := rows.filterMap fun row => (cutOf? s p.domains rowOf row).map fun cut =>
    { name := s!"gmi_x{row.basic}", row := cut, isLocal := decide (0 < p.depth), source := "gomory" }
  return cuts.take s.maxCuts

end Gomory

end BranchAndCut

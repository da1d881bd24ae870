import BranchAndCut.Scalar

/-! The best solution so far and the two bounds of the search, in the sense of
minimisation. The primal bound only falls and the dual bound only rises, and
never above the primal one. -/

namespace BranchAndCut

structure Incumbent (K : Type) where
  solution : Option (Array K) := none
  /-- The objective of the solution, infinite without one. -/
  primal : K
  /-- A proved lower bound. -/
  dual : K
  /-- Only solutions strictly below this value are accepted. -/
  objLimit : K
  absTol : K
  /-- Solutions accepted. -/
  updates : Nat := 0

namespace Incumbent

variable {K : Type} [Scalar K]

def new (objLimit absTol : K) : Incumbent K where
  primal := Scalar.inf
  dual := Scalar.negInf
  objLimit := objLimit
  absTol := absTol

/-- Offers a feasible solution; the answer is whether it is a strict improvement. -/
def offer (b : Incumbent K) (x : Array K) (obj : K) : Bool × Incumbent K :=
  if !Scalar.isFinite obj || decide (b.primal ≤ obj) || decide (b.objLimit ≤ obj) then (false, b)
  else
    (true, { b with
      primal := obj
      solution := some x
      updates := b.updates + 1
      dual := if obj < b.dual then obj else b.dual })

/-- Takes the lowest bound of the remaining work into the dual bound. -/
def updateDual (b : Incumbent K) (lowestOpen : K) : Incumbent K :=
  let bound := Scalar.min lowestOpen b.primal
  if b.dual < bound then { b with dual := bound } else b

/-- The value that a solution has to beat. -/
def cutoff (b : Incumbent K) : K := Scalar.min b.primal b.objLimit

/-- The slack allowed in comparing with the cutoff. -/
def tolerance (b : Incumbent K) : K :=
  let c := b.cutoff
  if Scalar.isFinite c then Scalar.max b.absTol (1e-9 * Scalar.abs c) else 0

/-- Whether a node with this bound cannot hold a better solution. -/
def isPrunable (b : Incumbent K) (bound : K) : Bool := decide (b.cutoff - b.tolerance ≤ bound)

def hasSolution (b : Incumbent K) : Bool := b.solution.isSome

/-- The gap relative to the primal bound, or to 1 below it; infinite unless both
bounds are finite. -/
def gap (b : Incumbent K) : K :=
  if !Scalar.isFinite b.primal || !Scalar.isFinite b.dual then Scalar.inf
  else Scalar.max ((b.primal - b.dual) / Scalar.max (Scalar.abs b.primal) 1) 0

/-- Whether the gap is closed within the tolerances. -/
def gapClosed (b : Incumbent K) (relTol absTol : K) : Bool :=
  Scalar.isFinite b.primal && Scalar.isFinite b.dual &&
    (decide (b.primal - b.dual ≤ absTol) || decide (b.gap ≤ relTol))

end Incumbent

end BranchAndCut

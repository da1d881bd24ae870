import BranchAndCut.Domain.Store
import BranchAndCut.Domain.Implication

/-! Tightening under implications. Every applied tightening is closed under the
implication graph at once, so that a fixing and all that it implies land together. -/

namespace BranchAndCut

/-- What a family of constraints reports about the local domain. -/
inductive Verdict where
  /-- The local domain holds no feasible point. -/
  | cutoff
  /-- Some bound was tightened. -/
  | reduced
  | nothing
deriving DecidableEq, Repr

/-- Domains while deductions are made from one source. -/
structure Deduction (K : Type) where
  domains : Domains K
  /-- Bounds tightened so far. -/
  reductions : Nat := 0
  /-- Whether a tightening, direct or implied, met an empty domain. -/
  infeasible : Bool := false
  /-- Whether a closure under implications ran out of steps. -/
  exhausted : Bool := false

namespace Deduction

variable {K : Type} [Scalar K]

@[inline] def lb (d : Deduction K) (v : VarId) : K := d.domains.lb v

@[inline] def ub (d : Deduction K) (v : VarId) : K := d.domains.ub v

@[inline] def isIntegral (d : Deduction K) (v : VarId) : Bool := d.domains.isIntegral v

/-- The value of a fixed binary variable. -/
def binaryFixing? (d : Domains K) (v : VarId) : Option Bool :=
  if !d.isIntegral v || decide (d.globalLb v < 0) || decide (1 < d.globalUb v) then none
  else if (0.5 : K) < d.lb v then some true
  else if d.ub v < (0.5 : K) then some false
  else none

/-- Applies implied bounds in order. The fixings that come of it are put on the
stack; the answer tells whether all bounds were feasible. -/
def applyImplied (d : Deduction K) (stack : List (VarId × Bool)) :
    List (Implication K) → Bool × Deduction K × List (VarId × Bool)
  | [] => (true, d, stack)
  | i :: rest =>
    match d.domains.tighten i.var i.kind i.value .implication with
    | (.applied, domains) =>
      let d := { d with domains, reductions := d.reductions + 1 }
      let stack := match binaryFixing? domains i.var with
        | some value => (i.var, value) :: stack
        | none => stack
      applyImplied d stack rest
    | (.redundant, domains) => applyImplied { d with domains } stack rest
    | (.infeasible, domains) => (false, { d with domains, infeasible := true }, stack)

/-- Applies the consequences of the fixings on a stack, the last one first. -/
def closeStack (g : ImplicationGraph K) (d : Deduction K) (stack : List (VarId × Bool)) :
    Nat → Bool × Deduction K
  | 0 => (true, { d with exhausted := true })
  | fuel + 1 =>
    match stack with
    | [] => (true, d)
    | (v, value) :: stack =>
      match d.applyImplied stack (g.implied v value) with
      | (true, d, stack) => closeStack g d stack fuel
      | (false, d, _) => (false, d)

/-- The number of fixings that a closure may follow. With integral bounds and a
tolerance below 1 a binary variable is fixed at most once, so that no more are
followed than there are variables. -/
def closureSteps (d : Domains K) : Nat := Nat.pow 2 62 + d.numVars

/-- Closes the domains under the implications of the current fixing of `v`.
Answers whether that was feasible. -/
def closeImplications (g : ImplicationGraph K) (d : Deduction K) (v : VarId) : Bool × Deduction K :=
  if g.isEmpty then (true, d)
  else
    match binaryFixing? d.domains v with
    | none => (true, d)
    | some value => d.closeStack g [(v, value)] (closureSteps d.domains)

/-- Tightens one bound and closes the domains under what that implies. -/
def tighten (g : ImplicationGraph K) (reason : Reason) (d : Deduction K) (v : VarId)
    (kind : BoundKind) (value : K) : Tightening × Deduction K :=
  match d.domains.tighten v kind value reason with
  | (.applied, domains) =>
    match closeImplications g { d with domains, reductions := d.reductions + 1 } v with
    | (true, d) => (.applied, d)
    | (false, d) => (.infeasible, d)
  | (.infeasible, domains) => (.infeasible, { d with domains, infeasible := true })
  | (.redundant, domains) => (.redundant, { d with domains })

/-- Fixes a variable. -/
def fix (g : ImplicationGraph K) (reason : Reason) (d : Deduction K) (v : VarId) (value : K) :
    Tightening × Deduction K :=
  match tighten g reason d v .lower value with
  | (.infeasible, d) => (.infeasible, d)
  | (low, d) =>
    match tighten g reason d v .upper value with
    | (.infeasible, d) => (.infeasible, d)
    | (high, d) =>
      (if low = .applied ∨ high = .applied then .applied else .redundant, d)

/-- The verdict on a source that has reported no cutoff. -/
def verdict (before after : Deduction K) : Verdict :=
  if before.reductions < after.reductions then .reduced else .nothing

end Deduction

end BranchAndCut

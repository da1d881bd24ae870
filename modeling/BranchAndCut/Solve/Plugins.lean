import BranchAndCut.Branching.Decision
import BranchAndCut.Cut
import BranchAndCut.Model.Problem
import BranchAndCut.Relaxation.Oracle

/-! What users may plug into a solve: separators of cutting planes, pricers of
columns and heuristics. Plugins act on a world `σ` and outlive a solve. Rounding
along unlocked directions is the built-in heuristic. -/

namespace BranchAndCut

/-- A generator of cuts that belongs to no family of constraints. The oracle
holds the relaxation whose solution is to be cut off. -/
structure Separator (K σ : Type) where
  name : String
  separate : Fractional K → Oracle K σ → EStateM (Error K) σ (List (Cut K))

/-- A column proposed by a pricer. -/
structure PricedColumn (K : Type) where
  name : String
  type : VarType
  lower : K
  upper : K
  /-- The objective coefficient in the user's sense. -/
  obj : K
  /-- Coefficients in modifiable constraints. -/
  coefs : List (ConsId × K)

/-- What a pricer found. -/
structure Pricing (K : Type) where
  columns : List (PricedColumn K)
  /-- A lower bound on the full relaxation of the node, if the pricer knows one. -/
  lowerBound : Option K := none

/-- The relaxation as pricers see it: the reduced cost of a column with
coefficients `aᵢ` is `sign * obj - ∑ yᵢ aᵢ`. -/
structure PricingPoint (K : Type) where
  x : Array K
  /-- The relaxation value in the sense of minimisation, without offset. -/
  objective : K
  /-- 1 when minimising, -1 when maximising. -/
  sign : K
  domains : Domains K
  depth : Nat
  duals : List (RowKey × K)

/-- The dual value of a constraint's row, zero if it has none. -/
def PricingPoint.dual {K : Type} [Scalar K] (p : PricingPoint K) (cons : ConsId) : K :=
  (p.duals.lookup (.constraint cons 0)).getD 0

/-- A generator of columns with negative reduced cost. -/
structure Pricer (K σ : Type) where
  name : String
  generate : PricingPoint K → EStateM (Error K) σ (Pricing K)

/-- What heuristics know after a relaxation solve. -/
structure HeuristicPoint (K : Type) where
  x : Array K
  domains : Domains K
  locks : LockTable
  intTol : K

/-- A search for solutions near the relaxation solution. -/
structure Heuristic (K σ : Type) where
  name : String
  find : HeuristicPoint K → EStateM (Error K) σ (Option (Array K))

/-- The plugins of a solver, in the order of their calls. -/
structure Plugins (K σ : Type) where
  separators : List (Separator K σ) := []
  pricers : List (Pricer K σ) := []
  heuristics : List (Heuristic K σ) := []

/-- Rounding of fractional values in a direction that no constraint locks. -/
structure Rounding where
  /-- Calls, and solutions proposed. -/
  calls : Nat := 0
  found : Nat := 0
deriving DecidableEq, Repr

namespace Rounding

variable {K : Type} [Scalar K]

def name : String := "simple_rounding"

/-- Rounds one value: down if nothing locks that, else up. The answer also tells
whether it changed; a value locked both ways has none. -/
def roundValue? (p : HeuristicPoint K) (v : VarId) (value : K) : Option (K × Bool) :=
  if !p.domains.isIntegral v then some (value, false)
  else if Scalar.abs (value - Scalar.round value) ≤ p.intTol then some (value, false)
  else
    let down := Scalar.floor value
    let up := Scalar.ceil value
    if p.locks.mayRoundDown v && decide (p.domains.lb v ≤ down) then some (down, true)
    else if p.locks.mayRoundUp v && decide (up ≤ p.domains.ub v) then some (up, true)
    else none

/-- The rounded point, if every value can be rounded and one is. -/
def point? (p : HeuristicPoint K) : Option (Array K) := do
  let values ← p.x.toList.zipIdx.mapM fun (value, v) => roundValue? p v value
  if values.any Prod.snd then some (values.map Prod.fst).toArray else none

/-- Rounds and counts. -/
def find (r : Rounding) (p : HeuristicPoint K) : Option (Array K) × Rounding :=
  match point? p with
  | some x => (some x, { calls := r.calls + 1, found := r.found + 1 })
  | none => (none, { r with calls := r.calls + 1 })

end Rounding

end BranchAndCut

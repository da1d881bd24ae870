import BranchAndCut.Row

/-! Pseudocosts: the average gain of the objective per unit of distance, by
variable and direction. A variable never observed has the average over all
observations, and 1 before the first. The observations are counted without end,
as 32 bits do while there are fewer than they can count. -/

namespace BranchAndCut

inductive Direction where
  /-- The upper bound was lowered. -/
  | down
  /-- The lower bound was raised. -/
  | up
deriving DecidableEq, Repr

/-- A sum of unit gains and how many they are. -/
structure Average (K : Type) where
  sum : K
  count : Nat := 0

namespace Average

variable {K : Type} [Scalar K]

def empty : Average K where
  sum := 0

def add (a : Average K) (unit : K) : Average K := { sum := a.sum + unit, count := a.count + 1 }

/-- The mean, if anything was observed. -/
def mean? (a : Average K) : Option K := if 0 < a.count then some (a.sum / Scalar.ofNat a.count) else none

end Average

/-- The observations of one direction. -/
structure DirectionCosts (K : Type) where
  byVar : Array (Average K)
  total : Average K

structure Pseudocosts (K : Type) where
  down : DirectionCosts K
  up : DirectionCosts K

namespace Pseudocosts

variable {K : Type} [Scalar K]

def new (numVars : Nat) : Pseudocosts K where
  down := { byVar := Array.replicate numVars Average.empty, total := Average.empty }
  up := { byVar := Array.replicate numVars Average.empty, total := Average.empty }

def side (t : Pseudocosts K) : Direction → DirectionCosts K
  | .down => t.down
  | .up => t.up

/-- Adds an observation to one direction. -/
def DirectionCosts.observe (c : DirectionCosts K) (v : VarId) (unit : K) : DirectionCosts K where
  byVar := (c.byVar ++ Array.replicate (v + 1 - c.byVar.size) Average.empty).modify v (·.add unit)
  total := c.total.add unit

/-- Records the gain after moving a variable by some distance. Distances next to
zero and gains that are not finite tell nothing. -/
def update (t : Pseudocosts K) (v : VarId) (dir : Direction) (gain distance : K) : Pseudocosts K :=
  if distance ≤ 1e-9 || !Scalar.isFinite gain then t
  else
    let unit := Scalar.max gain 0 / distance
    match dir with
    | .down => { t with down := DirectionCosts.observe t.down v unit }
    | .up => { t with up := DirectionCosts.observe t.up v unit }

/-- The pseudocost of a variable in a direction. -/
def get (t : Pseudocosts K) (v : VarId) (dir : Direction) : K :=
  let c := t.side dir
  match c.byVar[v]?.bind Average.mean? with
  | some mean => mean
  | none => (c.total.mean?).getD 1

/-- The number of observations of a variable in a direction. -/
def count (t : Pseudocosts K) (v : VarId) (dir : Direction) : Nat :=
  ((t.side dir).byVar[v]?.map Average.count).getD 0

/-- The product of the gains expected in the two children. -/
def score (t : Pseudocosts K) (v : VarId) (frac : K) : K :=
  Scalar.max (t.get v .down * frac) 1e-6 * Scalar.max (t.get v .up * (1 - frac)) 1e-6

end Pseudocosts

end BranchAndCut

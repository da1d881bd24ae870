import BranchAndCut.Scalar

/-! The result of a solve. -/

namespace BranchAndCut

inductive Status where
  /-- The tree is exhausted and there is a solution. -/
  | optimal
  /-- The tree is exhausted and there is no solution. -/
  | infeasible
  /-- A relaxation was proved unbounded. -/
  | unbounded
  | nodeLimit
  | timeLimit
  /-- The gap between the bounds is closed. -/
  | gapLimit
  | openNodeLimit
  | interrupted
  /-- The tree is exhausted, but some nodes could not be solved. -/
  | numericalTrouble
deriving DecidableEq, Repr

namespace Status

def text : Status → String
  | optimal => "Optimal"
  | infeasible => "Infeasible"
  | unbounded => "Unbounded"
  | nodeLimit => "Node Limit"
  | timeLimit => "Time Limit"
  | gapLimit => "Gap Limit"
  | openNodeLimit => "Open Node Limit"
  | interrupted => "Interrupted"
  | numericalTrouble => "Numerical Trouble"

/-- Whether the solve stopped without a proof. -/
def isLimit : Status → Bool
  | nodeLimit => true
  | timeLimit => true
  | openNodeLimit => true
  | interrupted => true
  | numericalTrouble => true
  | _ => false

/-- Whether optimality is proved, within the gap tolerance. -/
def isOptimal (s : Status) : Bool := s == .optimal || s == .gapLimit

end Status

/-- Counters of a solve. -/
structure Stats where
  nodesProcessed : Nat := 0
  nodesBranched : Nat := 0
  nodesPruned : Nat := 0
  nodesOpen : Nat := 0
  /-- The depth of the deepest node processed. -/
  maxDepth : Nat := 0
  lpSolves : Nat := 0
  lpIterations : Nat := 0
  /-- Relaxations solved again from scratch. -/
  lpRetries : Nat := 0
  /-- Nodes whose relaxation could not be solved. -/
  unreliableNodes : Nat := 0
  cutsAdded : Nat := 0
  columnsAdded : Nat := 0
  domainReductions : Nat := 0
  incumbentUpdates : Nat := 0
  /-- Solutions found by heuristics. -/
  heuristicSolutions : Nat := 0
deriving DecidableEq, Repr

/-- The result in the user's sense, offset included. -/
structure Outcome (K : Type) where
  status : Status
  /-- The best solution, by variable. -/
  x : Option (Array K)
  primalBound : K
  dualBound : K
  gap : K
  stats : Stats

/-- The relative gap `|primal - dual| / |primal|`, infinite unless both are finite. -/
def relativeGap {K : Type} [Scalar K] (primal dual : K) : K :=
  if Scalar.isInfinite primal || Scalar.isInfinite dual then Scalar.inf
  else Scalar.abs (primal - dual) / Scalar.max (Scalar.abs primal) 1e-10

end BranchAndCut

import BranchAndCut.Branching.Decision
import BranchAndCut.Relaxation.Oracle

/-! Nodes of the search tree. -/

namespace BranchAndCut

/-- Why a node was closed without children. -/
inductive PruneReason where
  /-- Propagation or the relaxation proved it infeasible. -/
  | infeasible
  /-- Its bound cannot beat the incumbent. -/
  | boundExceeded
  /-- Its relaxation solution was feasible; nothing better is below. -/
  | solved
  /-- The search stopped. -/
  | abandoned
deriving DecidableEq, Repr

inductive NodeStatus where
  /-- Waiting in the queue. -/
  | open
  /-- Being processed. -/
  | solving
  /-- It has children. -/
  | branched
  | pruned (reason : PruneReason)
  /-- Its relaxation failed and it could not be split; its bound stays in the dual bound. -/
  | unresolved
deriving DecidableEq, Repr

/-- Whether a node is done with, apart from its children. -/
def NodeStatus.isClosed : NodeStatus → Bool
  | .branched => true
  | .pruned _ => true
  | _ => false

/-- How a child came from splitting a fractional variable. -/
structure BranchOrigin (K : Type) where
  candidate : Candidate K
  dir : Direction
  /-- The relaxation value of the parent. -/
  parentObjective : K

structure Node (K : Type) where
  id : NodeId
  parent : Option NodeId := none
  depth : Nat := 0
  /-- Bound changes from the parent to this node. -/
  changes : List (BoundChange K) := []
  /-- A lower bound on the objective below this node. -/
  dualBound : K
  /-- The objective expected of the best solution below. -/
  estimate : K
  status : NodeStatus := .open
  origin : Option (BranchOrigin K) := none
  /-- The basis from which the children start. -/
  basis : Option SavedBasis := none
  /-- Children still in the tree. -/
  liveChildren : Nat := 0

namespace Node

variable {K : Type} [Scalar K]

def root (id : NodeId) (dualBound : K) : Node K where
  id := id
  dualBound := dualBound
  estimate := dualBound

/-- A child, which inherits the dual bound. -/
def child (n : Node K) (id : NodeId) (changes : List (BoundChange K)) (estimate : K) : Node K where
  id := id
  parent := some n.id
  depth := n.depth + 1
  changes := changes
  dualBound := n.dualBound
  estimate := Scalar.max estimate n.dualBound

/-- Raises the dual bound; a lower value is ignored. -/
def raiseBound (n : Node K) (bound : K) : Node K :=
  if n.dualBound < bound then { n with dualBound := bound, estimate := Scalar.max n.estimate bound }
  else n

end Node

end BranchAndCut

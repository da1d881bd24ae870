import BranchAndCut.Document.Domain
import BranchAndCut.Document.Linear
import BranchAndCut.Solve.Incumbent
import BranchAndCut.Solve.Result

/-! Branchings, nodes and the results of solves in documents. -/

namespace BranchAndCut

open Json

variable {K : Type}

instance [Scalar K] [Decode K] : Decode (Candidate K) where
  decode? v := some { var := v.get "var" 0, value := v.get "value" 0, frac := v.get "frac" 0 }

instance : Encode K (Candidate K) where
  encode text c := encode text (c.var, c.value, c.frac)

instance [Scalar K] [Decode K] : Decode (ChildSpec K) where
  decode? v := some { changes := v.get "changes" [], estimate := v.get "estimate" 0, dir := v.get? "dir" }

instance : Encode K (ChildSpec K) where
  encode text c := .record [
    ("changes", encode text c.changes), ("estimate", encode text c.estimate), ("dir", encode text c.dir)]

instance : Encode K (BranchingDecision K) where
  encode text d := .record [("var", encode text d.var), ("children", encode text d.children)]

instance : Encode K (BranchOrigin K) where
  encode text o := .record [
    ("cand", encode text o.candidate), ("dir", encode text o.dir), ("parent_lp", encode text o.parentObjective)]

instance : Encode K (Node K) where
  encode text n := .record [
    ("id", encode text n.id),
    ("parent", encode text n.parent),
    ("depth", encode text n.depth),
    ("changes", encode text n.changes),
    ("dual_bound", encode text n.dualBound),
    ("estimate", encode text n.estimate),
    ("status", encode text n.status),
    ("closed", encode text n.status.isClosed),
    ("branch", encode text n.origin),
    ("basis", encode text n.basis)]

/-- The fields of an incumbent with the bounds that it gives. -/
def Incumbent.fields [Scalar K] (text : K → String) (b : Incumbent K) : List (String × Layout) := [
  ("primal", encode text b.primal),
  ("dual", encode text b.dual),
  ("cutoff", encode text b.cutoff),
  ("gap", encode text b.gap),
  ("incumbent", encode text b.hasSolution),
  ("solution", encode text b.solution),
  ("updates", encode text b.updates)]

/-- The fields of the work of rounds. -/
def RoundStats.fields (text : K → String) (s : RoundStats) : List (String × Layout) := [
  ("lp_solves", encode text s.lpSolves),
  ("rounds", encode text s.rounds),
  ("cuts_added", encode text s.cutsAdded),
  ("columns_added", encode text s.columnsAdded)]

instance : Encode K Stats where
  encode text s := .record [
    ("processed", encode text s.nodesProcessed),
    ("branched", encode text s.nodesBranched),
    ("pruned", encode text s.nodesPruned),
    ("open", encode text s.nodesOpen),
    ("max_depth", encode text s.maxDepth),
    ("lp_solves", encode text s.lpSolves),
    ("lp_iterations", encode text s.lpIterations),
    ("lp_retries", encode text s.lpRetries),
    ("unreliable", encode text s.unreliableNodes),
    ("cuts", encode text s.cutsAdded),
    ("columns", encode text s.columnsAdded),
    ("reductions", encode text s.domainReductions),
    ("incumbents", encode text s.incumbentUpdates),
    ("heuristic", encode text s.heuristicSolutions)]

/-- The fields of the result of a solve. -/
def Outcome.fields (text : K → String) (out : Outcome K) : List (String × Layout) := [
  ("status", encode text out.status.text),
  ("has_solution", encode text out.x.isSome),
  ("x", encode text out.x),
  ("primal", encode text out.primalBound),
  ("dual", encode text out.dualBound),
  ("gap", encode text out.gap),
  ("stats", encode text out.stats)]

end BranchAndCut

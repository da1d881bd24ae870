import BranchAndCut.Relaxation.KeyedSimplex
import BranchAndCut.Solve.NodeRounds

/-! Branch and cut. A node is entered, propagated and put through its rounds;
then it is closed, its solution is recorded, or it is split. -/

namespace BranchAndCut

namespace Search

variable {K σ : Type} [Scalar K]

/-! ## One node -/

/-- What to do after a node. -/
inductive NodeResult where
  | continue
  /-- The problem was proved unbounded. -/
  | unbounded
deriving DecidableEq, Repr

/-- Closes a node without children. -/
def closeNode (id : NodeId) (reason : PruneReason) : SearchM K σ NodeResult := do
  modifyStats fun st => { st with nodesPruned := st.nodesPruned + 1 }
  onTree (SearchTree.prune id reason)
  pure .continue

/-- Takes variables fixed at the root out of their groups. -/
def compactFixed : SearchM K σ Unit := modify fun s =>
  let fixed := s.problem.order.filter s.domains.isGloballyFixed
  { s with problem := fixed.foldl Problem.compact s.problem }

/-- Asks one heuristic; a proposal of the wrong length is refused. -/
def askHeuristic (p : HeuristicPoint K) (heur : Heuristic K σ) : SearchM K σ (Option (Array K)) := do
  match ← onWorld (heur.find p) with
  | none => pure none
  | some x =>
    if x.size ≠ p.x.size then throw (.plugin heur.name (.solutionLength x.size p.x.size))
    pure (some x)

/-- Runs the heuristics on a relaxation solution and offers what they propose. -/
def runHeuristics (sv : Solver K σ) (x : Array K) : SearchM K σ Unit := do
  let s ← get
  let point : HeuristicPoint K := {
    x
    domains := s.domains
    locks := s.locks
    intTol := sv.settings.intFeasTol }
  let rounded := if sv.settings.heuristics then Rounding.point? point else none
  let proposed ← sv.plugins.heuristics.mapM (askHeuristic point)
  (rounded :: proposed).forM fun
    | none => pure ()
    | some x => do
      if ← trySolution sv x then
        modifyStats fun st => { st with heuristicSolutions := st.heuristicSolutions + 1 }

/-- How to split a node at a relaxation solution: at a fractional variable, as a
family of constraints proposes, or by halving a domain. -/
def decide? (bound : K) (x : Array K) : SearchM K σ (Option (BranchingDecision K)) := do
  let s ← get
  let vars := s.problem.branchable
  let selected ← onWorld (s.brancher.select bound vars x s.domains s.stats.nodesProcessed)
  match selected with
  | some d => pure (some d)
  | none =>
    let s ← get
    let options := (List.range s.handlers.count).flatMap fun h =>
      let conss := s.registry.activeIndices h
      if conss.isEmpty then [] else s.handlers.branchings s.world h conss x s.domains
    match Brancher.ofOptions? bound options with
    | some d => pure (some d)
    | none => attempt (s.brancher.halve bound vars (some x) s.domains)

/-- Keeps a node that can be neither solved nor split. -/
def keepUnresolved (id : NodeId) : SearchM K σ NodeResult := do
  onTree (SearchTree.markUnresolved id)
  pure .continue

/-- Splits a node. -/
def split (id : NodeId) (d : BranchingDecision K) (objective : K) (basis : Option SavedBasis) :
    SearchM K σ NodeResult := do
  let _ ← onTree (SearchTree.pushChildren id d objective basis)
  modifyStats fun st => { st with nodesBranched := st.nodesBranched + 1 }
  pure .continue

def countUnreliable : SearchM K σ Unit :=
  modifyStats fun st => { st with unreliableNodes := st.unreliableNodes + 1 }

/-- Splits a node at a relaxation solution that is no solution of the problem. -/
def branch (sv : Solver K σ) (id : NodeId) (bound : K) (lp : Relaxation K) : SearchM K σ NodeResult := do
  if sv.settings.heuristics || !sv.plugins.heuristics.isEmpty then runHeuristics sv lp.x
  let s ← get
  if (sv.settings.heuristics || !sv.plugins.heuristics.isEmpty) && s.incumbent.isPrunable bound then
    closeNode id .boundExceeded
  else
    match ← decide? bound lp.x with
    | some d => split id d lp.objective (sv.oracle.saveBasis (← get).world)
    | none =>
      countUnreliable
      keepUnresolved id

/-- Splits a node without a relaxation solution. -/
def branchBlindly (id : NodeId) (bound : K) : SearchM K σ NodeResult := do
  countUnreliable
  let s ← get
  match ← attempt (s.brancher.halve bound s.problem.branchable none s.domains) with
  | some d => split id d bound none
  | none => keepUnresolved id

/-- Makes the path to a node active in domains, constraints and relaxation;
false if its bound changes conflict. -/
def enterNode (sv : Solver K σ) (path : List NodeId) : SearchM K σ Bool := do
  let feasible ← modifyGet fun s =>
    let (feasible, domains) := s.domains.restore path s.tree.delta
    (feasible, { s with domains })
  let delta ← modifyGet fun s =>
    let (delta, registry) := s.registry.switchPath path
    (delta, { s with registry })
  syncRows sv delta
  modifyStats fun st => { st with maxDepth := Nat.max st.maxDepth (path.length - 1) }
  pure feasible

/-- Runs the rounds of a node; the answer is how they ended, the bound then known
and the last relaxation result. -/
def runRounds (sv : Solver K σ) (node : Node K) (depth : Nat) :
    SearchM K σ (RoundOutcome × K × Option (Relaxation K)) := fun s =>
  let limits : RoundLimits := {
    maxRounds := if depth = 0 then sv.settings.maxCutRoundsRoot else sv.settings.maxCutRoundsPerNode
    maxPricingRounds := sv.settings.maxPricingRounds
    pricing := sv.settings.pricingEnabled && !sv.plugins.pricers.isEmpty }
  let focus : Focus K σ := {
    search := s
    node := node.id
    depth
    nodeBound := node.dualBound
    pricerBound := Scalar.negInf
    origin := node.origin }
  match (Focus.driver sv).run limits {} sv.steps focus with
  | .ok (outcome, _) f =>
    let bound :=
      if outcome = .feasible ∨ outcome = .fractional ∨ outcome = .boundExceeded then f.bound
      else Scalar.max node.dualBound f.pricerBound
    .ok (outcome, bound, f.lp) f.search
  | .error e f => .error e f.search

/-- Lets the relaxation start from the basis of the parent, if it has one. -/
def warmStart (sv : Solver K σ) (node : Node K) : SearchM K σ Unit := modify fun s =>
  match (node.parent.bind s.tree.node?).bind (·.basis) with
  | some basis => { s with world := sv.oracle.restoreBasis basis s.world }
  | none => s

/-- Closes, records or splits a node after its rounds. -/
def conclude (sv : Solver K σ) (id : NodeId) (outcome : RoundOutcome) (bound : K)
    (lp : Option (Relaxation K)) : SearchM K σ NodeResult := do
  match outcome, lp with
  | .unbounded, _ => pure .unbounded
  | .infeasible, _ => closeNode id .infeasible
  | .cutoff, _ => closeNode id .infeasible
  | .boundExceeded, _ => closeNode id .boundExceeded
  | .feasible, some lp =>
    let _ ← report lp.x
    closeNode id .solved
  | .fractional, some lp => branch sv id bound lp
  | _, _ => branchBlindly id bound

/-- Processes a node. -/
def processNode (sv : Solver K σ) (id : NodeId) : SearchM K σ NodeResult := do
  let path ← attempt ((← get).tree.pathTo id)
  let depth := path.length - 1
  if !(← enterNode sv path) then closeNode id .infeasible
  else
    let replayed := (← get).domains.focusDelta.length
    if !(← propagate sv) then closeNode id .infeasible
    else
      if depth = 0 then compactFixed
      let node ← attempt ((← get).tree.getNode id)
      warmStart sv node
      let (outcome, bound, lp) ← runRounds sv node depth
      modify fun s => { s with tree := s.tree.modifyNode id (·.raiseBound bound) }
      let changes := (← get).domains.focusDelta.drop replayed
      onTree (SearchTree.recordChanges id changes)
      conclude sv id outcome bound lp

/-! ## The search -/

/-- The reason to stop before the next node, if there is one. -/
def limit? (sv : Solver K σ) (s : Search K σ) : Option Status :=
  let settings := sv.settings
  let signals := sv.signals s.stats.nodesProcessed s.world
  if s.tree.numOpen = 0 then none
  else if signals.interrupted then some .interrupted
  else if settings.timeLimit.any (· ≤ signals.elapsed) then some .timeLimit
  else if settings.nodeLimit ≤ s.stats.nodesProcessed then some .nodeLimit
  else if settings.maxOpenNodes.any (· < s.tree.numOpen) then some .openNodeLimit
  else if s.incumbent.gapClosed settings.gapTol settings.gapAbsTol then some .gapLimit
  else none

/-- The status once no node is left. -/
def exhausted (s : Search K σ) : Status :=
  if 0 < s.tree.numUnresolved then .numericalTrouble
  else if s.incumbent.hasSolution then .optimal
  else .infeasible

/-- Raises the dual bound to the lowest bound of the remaining work. -/
def updateDual : SearchM K σ Unit := modify fun s =>
  let (lowest, tree) := s.tree.lowestBound
  { s with tree, incumbent := s.incumbent.updateDual lowest }

/-- One iteration: processes the next node; the answer is the status, if the
search ends. -/
def step (sv : Solver K σ) : SearchM K σ (Option Status) := do
  match (← get).limit? sv with
  | some status => pure (some status)
  | none =>
    let incumbent := (← get).incumbent
    match ← onTree (SearchTree.popNext incumbent.isPrunable) with
    | none => pure (some (← get).exhausted)
    | some id =>
      modifyStats fun st => { st with nodesProcessed := st.nodesProcessed + 1 }
      let result ← processNode sv id
      releaseNodes sv
      match result with
      | .unbounded => pure (some .unbounded)
      | .continue =>
        updateDual
        pure none

/-- Processes nodes until a limit or the end of the tree. -/
def loop (sv : Solver K σ) : Nat → SearchM K σ Status
  | 0 => throw .outOfSteps
  | fuel + 1 => do
    match ← step sv with
    | some status => pure status
    | none => loop sv fuel

/-- The result for the user. Values of integral variables are rounded. -/
def finish (s : Search K σ) (status : Status) : Outcome K :=
  let dual := match status with
    | .unbounded => Scalar.negInf
    | .infeasible => Scalar.inf
    | _ => s.incumbent.dual
  let primalBound := s.problem.external s.incumbent.primal
  let dualBound := s.problem.external dual
  { status
    x := s.incumbent.solution.map fun x => x.mapIdx fun v a =>
      if s.problem.isIntegral v then Scalar.round a else a
    primalBound
    dualBound
    gap := relativeGap primalBound dualBound
    stats := { s.stats with
      nodesOpen := s.tree.numOpen
      nodesPruned := s.stats.nodesPruned + s.tree.prunedByBound
      incumbentUpdates := s.incumbent.updates } }

/-- Runs the search from its start. -/
def run (sv : Solver K σ) : SearchM K σ (Outcome K) := do
  setUp sv
  if (← get).domains.hasEmptyDomain then return (← get).finish .infeasible
  let _ ← onTree (SearchTree.createRoot Scalar.negInf)
  let status ← loop sv sv.steps
  return (← get).finish status

end Search

namespace Solver

variable {K σ : Type} [Scalar K]

/-- Solves a model in a world, and leaves the world as the oracle and the plugins
have changed it. -/
def solve (sv : Solver K σ) (m : Model K σ) (w : σ) : Except (Error K) (Outcome K) × σ :=
  match sv.settings.validate with
  | .error flaw => (.error (.invalid (.settings flaw)), w)
  | .ok _ =>
    match Search.run sv (Search.ofModel sv m w) with
    | .ok out s => (.ok out, s.world)
    | .error e s => (.error e, s.world)

/-- A solver without plugins, with the simplex method for its relaxations. -/
def plain (settings : Settings K) : Solver K (KeyedSimplex K) where
  settings := settings
  oracle := KeyedSimplex.oracle

end Solver

/-- Solves a model by the settings alone. -/
def solve {K : Type} [Scalar K] (m : Model K (KeyedSimplex K)) (settings : Settings K) :
    Except (Error K) (Outcome K) :=
  ((Solver.plain settings).solve m { settings := settings.relaxation }).1

end BranchAndCut

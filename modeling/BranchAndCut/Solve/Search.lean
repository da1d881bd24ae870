import BranchAndCut.Constraint.Fixpoint
import BranchAndCut.Cut.Gomory
import BranchAndCut.Cut.Pool
import BranchAndCut.Model.Basic
import BranchAndCut.Solve.Incumbent
import BranchAndCut.Solve.Plugins
import BranchAndCut.Solve.Result
import BranchAndCut.Tree.SearchTree

/-! The state of a search, and the operations that keep its parts together: the
relaxation holds the rows of exactly the active constraints and cuts, a priced
column enters the problem, the domains, the constraints and the relaxation, and
a solution is accepted only after its check. -/

namespace BranchAndCut

/-- What can stop a solve from outside. -/
structure Signals where
  /-- Whether it was asked to stop. -/
  interrupted : Bool := false
  /-- The milliseconds since its start. -/
  elapsed : Nat := 0
deriving DecidableEq, Repr

/-- A solver: its settings and plugins, and the oracle of its relaxations. -/
structure Solver (K σ : Type) where
  settings : Settings K
  oracle : Oracle K σ
  plugins : Plugins K σ := {}
  scoring : Option (ScoringRule K σ) := none
  /-- The signals that are seen before a node, by the number of nodes processed until then
  and the world. -/
  signals : Nat → σ → Signals := fun _ _ => {}
  /-- The steps that each loop may take. -/
  steps : Nat := Nat.pow 2 62

structure Search (K σ : Type) where
  problem : Problem K
  handlers : Handlers K σ
  registry : Registry
  implications : ImplicationGraph K
  domains : Domains K
  locks : LockTable
  propagator : Propagator
  pool : CutPool K
  tree : SearchTree K
  incumbent : Incumbent K
  brancher : Brancher K σ
  /-- The built-in separator, where it may be used. -/
  gomory : Option (GomorySettings K)
  stats : Stats := {}
  /-- The number of relaxation rows of each constraint that has some. -/
  lpRows : Std.TreeMap ConsId Nat := ∅
  /-- Rows of cuts set aside. They are removed before the next solve, so that the
  tableau of the last one stays available. -/
  staleCutRows : List RowKey := []
  world : σ

/-- Operations of the search. -/
abbrev SearchM (K σ : Type) := EStateM (Error K) (Search K σ)

namespace Search

variable {K σ : Type} [Scalar K]

/-! ## Parts -/

/-- An operation of the oracle or of a plugin. -/
def onWorld {α : Type} (act : EStateM (Error K) σ α) : SearchM K σ α :=
  onPart Search.world (fun s world => { s with world }) act

/-- An operation of the tree. -/
def onTree {α : Type} (act : TreeM K α) : SearchM K σ α :=
  onPart Search.tree (fun s tree => { s with tree }) act

/-- A step that may fail. -/
def attempt {α : Type} : Except (Error K) α → SearchM K σ α
  | .ok a => pure a
  | .error e => throw e

def modifyStats (f : Stats → Stats) : SearchM K σ Unit := modify fun s => { s with stats := f s.stats }

/-! ## Start -/

/-- Integer variables within [0, 1] are taken for binary ones. -/
def asBinary (p : Problem K) (v : VarId) : Problem K :=
  let x := p.var v
  if x.type = .integer && decide ((0 : K) ≤ x.lower) && decide (x.upper ≤ 1) then
    match p.changeType v .binary with
    | .ok p => p
    | .error _ => p
  else p

/-- Adds the locks of a constraint, and lets its family watch the variables. -/
def lockCons (s : Search K σ) (h : HandlerId) (locks : List Lock) : Search K σ :=
  { s with locks := s.locks.add locks, propagator := s.propagator.watch h locks }

/-- The locks of a constraint. -/
def locksOf (s : Search K σ) (id : ConsId) : List Lock :=
  s.handlers.locks s.world (s.registry.handler id) (s.registry.index id)

/-- Whether priced columns may enter a constraint. -/
def isModifiable (s : Search K σ) (id : ConsId) : Bool :=
  s.handlers.isModifiable s.world (s.registry.handler id) (s.registry.index id)

/-- The state before the relaxation is set up. Cuts that combine modifiable rows
lose their validity once columns are priced, so such models get none. -/
def ofModel (sv : Solver K σ) (m : Model K σ) (world : σ) : Search K σ :=
  let settings := sv.settings
  let problem := (List.range m.problem.numVars).foldl asBinary m.problem
  let n := problem.numVars
  let s : Search K σ := {
    problem
    handlers := m.handlers
    registry := m.registry
    implications := m.implications
    domains := Domains.new (problem.vars.map (·.lower)) (problem.vars.map (·.upper))
      (problem.vars.map (·.type.isIntegral)) settings.feasTol
    locks := LockTable.new n
    propagator := Propagator.new m.handlers n settings.maxPropagationRounds
    pool := CutPool.new { (PoolSettings.default : PoolSettings K) with cleanupFreq := settings.cutCleanupFreq }
    tree := SearchTree.new settings.nodeSelection
    incumbent := Incumbent.new ((problem.objLimit.map problem.internal).getD Scalar.inf) settings.feasTol
    brancher := { (Brancher.new settings.branchingRule n settings.intFeasTol : Brancher K σ) with
      custom := sv.scoring }
    gomory := none
    world }
  let active := m.registry.allActive
  let s := active.foldl (fun s id => s.lockCons (s.registry.handler id) (s.locksOf id)) s
  { s with
    gomory :=
      if settings.gomoryCuts && !active.any s.isModifiable then
        some { (GomorySettings.default : GomorySettings K) with
          maxCuts := settings.gomoryMaxCuts
          maxDepth := settings.gomoryMaxDepth }
      else none }

/-! ## Rows of the relaxation -/

/-- Adds the relaxation rows of a constraint. -/
def addConsRows (sv : Solver K σ) (id : ConsId) : SearchM K σ Unit := do
  let s ← get
  let rows := s.handlers.initialRows s.world (s.registry.handler id) (s.registry.index id)
  if !rows.isEmpty then
    onWorld (sv.oracle.addRows (rows.zipIdx.map fun (row, k) => (.constraint id k, row)))
    modify fun s => { s with lpRows := s.lpRows.insert id rows.length }

/-- Removes the relaxation rows of a constraint. -/
def removeConsRows (sv : Solver K σ) (id : ConsId) : SearchM K σ Unit := do
  match (← get).lpRows[id]? with
  | none => pure ()
  | some n =>
    modify fun s => { s with lpRows := s.lpRows.erase id }
    onWorld (sv.oracle.removeRows ((List.range n).map (.constraint id)))

/-- Brings the relaxation in line with a switch of the path. -/
def syncRows (sv : Solver K σ) (delta : ActivationDelta) : SearchM K σ Unit := do
  delta.deactivated.forM (removeConsRows sv)
  delta.activated.forM (addConsRows sv)

/-- Sets up the relaxation: a column for every variable, and the rows of the
active constraints. -/
def setUp (sv : Solver K σ) : SearchM K σ Unit := do
  let s ← get
  onWorld (sv.oracle.addColumns ((List.range s.problem.numVars).map fun v =>
    { var := v, cost := s.problem.cost v }))
  s.registry.allActive.forM (addConsRows sv)

/-- Puts an active cut of the pool into the relaxation. -/
def addCutRow (sv : Solver K σ) (id : Nat) : SearchM K σ Unit := do
  match (← get).pool.get? id with
  | none => throw (.internal (.cutNotPooled id))
  | some c =>
    modify fun s => { s with staleCutRows := s.staleCutRows.filter (· != .cut id) }
    onWorld (sv.oracle.addRows [(.cut id, c.cut.row)])

/-- Schedules the rows of cuts for removal. -/
def retireCutRows (ids : List Nat) : SearchM K σ Unit :=
  modify fun s => { s with staleCutRows := s.staleCutRows ++ ids.map .cut }

/-- Removes the rows scheduled. -/
def flushStaleRows (sv : Solver K σ) : SearchM K σ Unit := do
  let keys := (← get).staleCutRows
  if !keys.isEmpty then
    modify fun s => { s with staleCutRows := [] }
    onWorld (sv.oracle.removeRows keys)

/-- Turns a local cut into a linear constraint of a node. -/
def addLocalCut (sv : Solver K σ) (node : NodeId) (cut : Cut K) : SearchM K σ Unit := do
  let s ← get
  let (index, linear) := s.handlers.linear.addRow cut.name cut.row false
  set { s with handlers := { s.handlers with linear } }
  let (id, registry) ← attempt (s.registry.add 0 index (.below node))
  modify fun s => { s with registry }.lockCons 0 (linear.locks index)
  addConsRows sv id

/-! ## Priced columns -/

/-- Refuses a coefficient of a priced column in a constraint that cannot take it. -/
def checkEntry (pricer : String) (col : PricedColumn K) (entry : ConsId × K) : SearchM K σ Unit := do
  let (cons, a) := entry
  let s ← get
  if s.registry.size ≤ cons || s.registry.isDeleted cons || !Scalar.isFinite a then
    throw (.plugin pricer (.badColumnEntry col.name a cons))
  if !s.isModifiable cons then throw (.plugin pricer (.closedConstraint col.name cons))

/-- Adds the coefficient of a new column to a constraint; the answer is the
coefficient of its row, if it is in the relaxation. -/
def enterColumn (v : VarId) (entry : ConsId × K) : SearchM K σ (Option (RowKey × K)) := do
  let (cons, a) := entry
  let s ← get
  let h := s.registry.handler cons
  onPart (fun (s : Search K σ) => (s.handlers, s.world))
    (fun s (handlers, world) => { s with handlers, world })
    (Handlers.addCoefficient h (s.registry.index cons) v a)
  modify fun s => s.lockCons h ((s.locksOf cons).filter (·.var == v))
  pure (if (← get).lpRows.contains cons then some (.constraint cons 0, a) else none)

/-- Adds a priced column as a new variable of problem, domains, constraints,
locks and relaxation. -/
def addPricedColumn (sv : Solver K σ) (pricer : String) (col : PricedColumn K) : SearchM K σ Unit := do
  col.coefs.forM (checkEntry pricer col)
  let s ← get
  match s.problem.addVar col.name col.type col.lower col.upper col.obj with
  | .error flaw => throw (.plugin pricer (.refusedColumn flaw))
  | .ok (v, problem) =>
    let x := problem.var v
    let (dv, domains) := s.domains.addVariable x.lower x.upper x.type.isIntegral
    set { s with problem, domains }
    if dv ≠ v then throw (.internal (.columnMismatch v))
    let entries ← col.coefs.mapM (enterColumn v)
    onWorld (sv.oracle.addColumns
      [{ var := v, cost := problem.cost v, entries := entries.filterMap id }])
    modifyStats fun st => { st with columnsAdded := st.columnsAdded + 1 }

/-! ## Solutions -/

/-- Whether all binary and integer variables are integral at a point. -/
def isIntegralAt (s : Search K σ) (intTol : K) (x : Array K) : Bool :=
  s.problem.branchable.all fun v =>
    let a := x.getD v 0
    decide (Scalar.abs (a - Scalar.round a) ≤ intTol)

/-- The indices of the active constraints of a family, or of the global ones among them. -/
def indicesToCheck (s : Search K σ) (h : HandlerId) (globalOnly : Bool) : List Nat :=
  if globalOnly then
    ((s.registry.activeOf h).toList.filter fun id => (s.registry.record id).scope = .everywhere).map
      s.registry.index
  else s.registry.activeIndices h

/-- Whether a point satisfies the active constraints, or the global ones among them. -/
def satisfies (s : Search K σ) (feasTol : K) (x : Array K) (globalOnly : Bool) : Bool :=
  (List.range s.handlers.count).all fun h =>
    (s.handlers.check s.world h (s.indicesToCheck h globalOnly) x feasTol).isEmpty

/-- Offers a feasible point; on improvement dominated open nodes are closed. -/
def report (x : Array K) : SearchM K σ Bool := do
  let s ← get
  match s.incumbent.offer x (s.problem.value x) with
  | (false, _) => pure false
  | (true, incumbent) =>
    set { s with incumbent, tree := s.tree.setHasIncumbent true }
    let _ ← onTree (SearchTree.pruneDominated incumbent.isPrunable)
    pure true

/-- Whether a value lies within the global bounds of a variable, and is integral
if it has to be. -/
def valueFits (settings : Settings K) (s : Search K σ) (v : VarId) (a : K) : Bool :=
  Scalar.isFinite a && decide (s.domains.globalLb v - settings.feasTol ≤ a) &&
    decide (a ≤ s.domains.globalUb v + settings.feasTol) &&
    (!s.problem.isIntegral v || decide (Scalar.abs (a - Scalar.round a) ≤ settings.intFeasTol))

/-- Checks a point proposed by a heuristic against global bounds, integrality
and all global constraints, and offers it. -/
def trySolution (sv : Solver K σ) (x : Array K) : SearchM K σ Bool := do
  let s ← get
  if x.size ≠ s.problem.numVars then pure false
  else if !(x.toList.zipIdx.all fun (a, v) => valueFits sv.settings s v a) then pure false
  else if !s.satisfies sv.settings.feasTol x true then pure false
  else report x

/-! ## Nodes -/

/-- Frees the local constraints of a node that has left the tree. -/
def releaseNode (sv : Solver K σ) (node : NodeId) : SearchM K σ Unit := do
  let ids ← modifyGet fun s =>
    let (ids, registry) := s.registry.releaseNode node
    (ids, { s with registry })
  ids.forM fun id => do
    removeConsRows sv id
    modify fun s =>
      let (handlers, world) := s.handlers.delete s.world (s.registry.handler id) (s.registry.index id)
      { s with handlers, world }

/-- Frees the local constraints of all nodes that have left the tree. -/
def releaseNodes (sv : Solver K σ) : SearchM K σ Unit := do
  let released ← modifyGet fun s =>
    let (released, tree) := s.tree.drainReleased
    (released, { s with tree })
  released.forM (releaseNode sv)

/-- Propagates the active node and counts the reductions; false when it is cut off. -/
def propagate (sv : Solver K σ) : SearchM K σ Bool := do
  let s ← get
  let out ← onPart (fun (s : Search K σ) => (s.domains, s.world))
    (fun s (domains, world) => { s with domains, world })
    (s.propagator.run s.handlers s.registry s.implications sv.steps)
  modifyStats fun st => { st with domainReductions := st.domainReductions + out.reductions }
  pure !out.cutoff

end Search

end BranchAndCut

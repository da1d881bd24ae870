import BranchAndCut.Solve.Rounds
import BranchAndCut.Solve.Search

/-! The operations of the rounds at the node being processed. -/

namespace BranchAndCut

/-- The node being processed with the search around it. -/
structure Focus (K σ : Type) where
  search : Search K σ
  node : NodeId
  depth : Nat
  /-- The bound that the node has inherited. -/
  nodeBound : K
  /-- The best bound that pricers know at the current solution. -/
  pricerBound : K
  /-- How the node came from its parent, until the first solve has told the gain. -/
  origin : Option (BranchOrigin K)
  /-- The last relaxation result. -/
  lp : Option (Relaxation K) := none

/-- Operations at the node being processed. -/
abbrev FocusM (K σ : Type) := EStateM (Error K) (Focus K σ)

namespace Focus

variable {K σ : Type} [Scalar K]

/-- An operation of the search. -/
def onSearch {α : Type} (act : SearchM K σ α) : FocusM K σ α :=
  onPart Focus.search (fun f search => { f with search }) act

/-- The node bound with the value of the current relaxation. -/
def bound (f : Focus K σ) : K :=
  let lpBound := match f.lp with
    | some lp => if lp.status = .optimal then lp.objective else Scalar.negInf
    | none => Scalar.negInf
  Scalar.max (Scalar.max f.nodeBound lpBound) f.pricerBound

/-- Solves the relaxation once and counts it. -/
def solveOnce (sv : Solver K σ) : FocusM K σ (Relaxation K) := onSearch do
  let lp ← Search.onWorld sv.oracle.solve
  Search.modifyStats fun st =>
    { st with lpSolves := st.lpSolves + 1, lpIterations := st.lpIterations + lp.iterations }
  pure lp

/-- Solves the relaxation, from scratch again if that fails. -/
def solveReliably (sv : Solver K σ) : FocusM K σ (Relaxation K) := do
  let lp ← solveOnce sv
  if lp.status = .numericalTrouble ∨ lp.status = .limitReached then
    onSearch do
      modify fun s => { s with world := sv.oracle.clearBasis s.world }
      Search.modifyStats fun st => { st with lpRetries := st.lpRetries + 1 }
    solveOnce sv
  else pure lp

/-- Ages the cuts of the pool by the dual values of their rows. -/
def ageCuts (lp : Relaxation K) : FocusM K σ Unit := onSearch do
  let retired ← modifyGet fun s =>
    let duals := s.pool.activeCuts.map fun c => (c.id, lp.dual (.cut c.id))
    let (retired, pool) := s.pool.updateActivity duals
    (retired, { s with pool })
  Search.retireCutRows retired

/-- Learns from the gain that the first solve of the node shows. -/
def learnGain (lp : Relaxation K) : FocusM K σ Unit := modify fun f =>
  match f.origin with
  | none => f
  | some o =>
    let brancher := f.search.brancher.observe o.candidate o.dir (lp.objective - o.parentObjective)
    { f with origin := none, search := { f.search with brancher } }

/-- Sets the bounds and solves the relaxation. -/
def solve (sv : Solver K σ) : FocusM K σ RelaxationStatus := do
  onSearch do
    Search.flushStaleRows sv
    let d := (← get).domains
    Search.onWorld (sv.oracle.setBounds d.lower d.upper)
  let lp ← solveReliably sv
  if lp.status = .optimal then
    ageCuts lp
    learnGain lp
    modify fun f => { f with pricerBound := Scalar.negInf }
  modify fun f => { f with lp := some lp }
  pure lp.status

/-- Asks one pricer; the answer is its columns with its name. -/
def askPricer (p : PricingPoint K) (pricer : Pricer K σ) : FocusM K σ (List (String × PricedColumn K)) := do
  let found ← onSearch (Search.onWorld (pricer.generate p))
  match found.lowerBound with
  | none => pure ()
  | some bound =>
    if Scalar.isNaN bound then throw (.plugin pricer.name .undefinedBound)
    modify fun f => { f with pricerBound := Scalar.max f.pricerBound bound }
  pure (found.columns.map fun c => (pricer.name, c))

/-- Asks all pricers and adds their columns. -/
def price (sv : Solver K σ) : FocusM K σ Nat := do
  let f ← get
  match f.lp with
  | none => pure 0
  | some lp =>
    let point : PricingPoint K := {
      x := lp.x
      objective := lp.objective
      sign := f.search.problem.sign
      domains := f.search.domains
      depth := f.depth
      duals := lp.duals }
    let columns := (← sv.plugins.pricers.mapM (askPricer point)).flatten
    columns.forM fun (pricer, c) => onSearch (Search.addPricedColumn sv pricer c)
    pure columns.length

/-- Whether the relaxation solution is a solution of the problem. -/
def isFeasible (sv : Solver K σ) : FocusM K σ Bool := do
  let f ← get
  match f.lp with
  | none => pure false
  | some lp =>
    pure (f.search.isIntegralAt sv.settings.intFeasTol lp.x &&
      f.search.satisfies sv.settings.feasTol lp.x false)

/-- The cuts of the constraints. -/
def constraintCuts (p : Fractional K) : SearchM K σ (List (Cut K)) := do
  let s ← get
  let cuts ← (List.range s.handlers.count).mapM fun h => do
    let conss := s.registry.activeIndices h
    if conss.isEmpty then pure [] else Search.onWorld (s.handlers.separate h conss p)
  pure cuts.flatten

/-- The cuts of the built-in separator, then those of the user's. -/
def planeCuts (sv : Solver K σ) (p : Fractional K) : SearchM K σ (List (Cut K)) := do
  let s ← get
  let gomory ← match s.gomory with
    | none => pure []
    | some g =>
      Search.attempt (Gomory.separate g p (sv.oracle.tableauRows s.world) (sv.oracle.row? s.world))
  let cuts ← sv.plugins.separators.mapM fun sep => Search.onWorld (sep.separate p sv.oracle)
  pure (gomory ++ cuts.flatten)

/-- The efficacy of a cut where it exceeds the threshold; a malformed cut is refused. -/
def scored (sv : Solver K σ) (x : Array K) (cut : Cut K) : SearchM K σ (Option (K × Cut K)) := do
  if !cut.row.isValid then throw (.plugin cut.source (.malformedCut cut.name))
  let efficacy := cut.row.efficacy x
  pure (if sv.settings.cutViolationTol < efficacy then some (efficacy, cut) else none)

/-- Adds a cut: below the root a local one becomes a constraint of the node,
others go to the pool. -/
def addCut (sv : Solver K σ) (node : NodeId) (depth : Nat) (out : Separated) (cut : Cut K) :
    SearchM K σ Separated := do
  if cut.isLocal && decide (0 < depth) then
    Search.addLocalCut sv node cut
    pure { cuts := out.cuts + 1, localCuts := out.localCuts + 1 }
  else
    let (id, duplicate) ← modifyGet fun s =>
      let (id, duplicate, pool) := s.pool.add cut
      ((id, duplicate), { s with pool })
    if duplicate then pure out
    else
      Search.addCutRow sv id
      pure { out with cuts := out.cuts + 1 }

/-- Separates the relaxation solution and adds the most effective cuts. -/
def separate (sv : Solver K σ) (enforceOnly : Bool) : FocusM K σ Separated := do
  let f ← get
  match f.lp with
  | none => pure {}
  | some lp => onSearch do
    let point : Fractional K := {
      x := lp.x
      domains := f.search.domains
      depth := f.depth
      feasTol := sv.settings.feasTol }
    let enforced ← constraintCuts point
    let (planes, reactivated) ←
      if enforceOnly then pure ([], [])
      else
        let planes ← planeCuts sv point
        let reactivated ← modifyGet fun s =>
          let (ids, pool) := s.pool.separateInactive lp.x sv.settings.cutViolationTol
          (ids, { s with pool })
        pure (planes, reactivated)
    let cuts ← (enforced ++ planes).filterMapM (scored sv lp.x)
    let best := (cuts.mergeSort fun a b => Scalar.totalOrder a.1 b.1 != .lt).take sv.settings.cutsPerRound
    reactivated.forM (Search.addCutRow sv)
    let out ← best.foldlM (fun out (_, cut) => addCut sv f.node f.depth out cut)
      { cuts := reactivated.length }
    Search.modifyStats fun st => { st with cutsAdded := st.cutsAdded + out.cuts }
    pure out

/-- The operations of the rounds. -/
def driver (sv : Solver K σ) : RoundDriver K (Focus K σ) where
  solve := solve sv
  price := price sv
  boundExceeded f := f.search.incumbent.isPrunable f.bound
  isFeasible := isFeasible sv
  separate := separate sv
  propagate := onSearch (Search.propagate sv)

end Focus

end BranchAndCut

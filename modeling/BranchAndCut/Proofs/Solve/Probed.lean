import BranchAndCut.Proofs.Solve.Bounds

/-! # A run under observation

Two operations of a run can be replaced by stand-ins: the offer of a feasible point, and
separation. Stand-ins that do the same in every state in which the run comes to them leave
the run as it is. So a check that stands in for an operation, and goes astray where it
fails, tells what holds whenever the run comes to the operation. -/

namespace BranchAndCut

variable {ε K σ α β : Type}

/-! ## Programs that do the same -/

/-- From state `s` two programs do the same, and what they return is in `post`. -/
def Agree (m' m : EStateM ε σ α) (s : σ) (post : α → σ → Prop) : Prop :=
  m' s = m s ∧ Ensures m s post fun _ _ => True

namespace Agree

variable {s : σ} {post : α → σ → Prop} {mid : β → σ → Prop}

theorem refl {m : EStateM ε σ α} (h : Ensures m s post fun _ _ => True) : Agree m m s post := ⟨rfl, h⟩

theorem bind {m' m : EStateM ε σ β} {f' f : β → EStateM ε σ α} (h : Agree m' m s mid)
    (hf : ∀ b t, mid b t → Agree (f' b) (f b) t post) : Agree (m' >>= f') (m >>= f) s post := by
  obtain ⟨heq, hm⟩ := h
  refine ⟨?_, .bind_mono hm fun b t ht => (hf b t ht).2⟩
  change EStateM.bind m' f' s = EStateM.bind m f s
  unfold EStateM.bind
  unfold Ensures at hm
  rw [heq]
  cases hr : m s with
  | ok b t =>
    rw [hr] at hm
    exact (hf b t hm).1
  | error e t => rfl

theorem mono {m' m : EStateM ε σ α} {post' : α → σ → Prop} (h : Agree m' m s post)
    (hpost : ∀ a t, post a t → post' a t) : Agree m' m s post' :=
  ⟨h.1, h.2.mono hpost fun _ _ => id⟩

/-- The same program, and then programs that do the same. -/
theorem after {m : EStateM ε σ β} {f' f : β → EStateM ε σ α} (h : Ensures m s mid fun _ _ => True)
    (hf : ∀ b t, mid b t → Agree (f' b) (f b) t post) : Agree (m >>= f') (m >>= f) s post :=
  bind (refl h) hf

theorem get {f' f : σ → EStateM ε σ α} (h : Agree (f' s) (f s) s post) :
    Agree (MonadState.get >>= f') (MonadState.get >>= f) s post := by
  have hget : Ensures (MonadState.get : EStateM ε σ σ) s (fun b t => b = s ∧ t = s) fun _ _ => True :=
    .get ⟨rfl, rfl⟩
  refine after hget fun b t ⟨hb, ht⟩ => ?_
  rw [hb, ht]
  exact h

theorem forM {xs : List β} {f' f : β → EStateM ε σ PUnit} {I : σ → Prop}
    (hf : ∀ x t, I t → Agree (f' x) (f x) t fun _ u => I u) (hs : I s) :
    Agree (xs.forM f') (xs.forM f) s fun _ t => I t := by
  induction xs generalizing s with
  | nil => exact refl (.pure hs)
  | cons x xs ih => exact bind (hf x s hs) fun _ t ht => ih ht

end Agree

/-- Another way to separate does the same where the rounds come to it. -/
theorem RoundDriver.Contract.run_congr {S : Type} {d : RoundDriver K S} {Ready Solved : S → Prop}
    {Ended : RoundOutcome → S → Prop} {fail : Error K → S → Prop} (h : d.Contract Ready Solved Ended fail)
    {separate : Bool → EStateM (Error K) S Separated}
    (hseparate : ∀ s enforceOnly, Solved s → separate enforceOnly s = d.separate enforceOnly s)
    (limits : RoundLimits) (stats : RoundStats) (fuel : Nat) {s : S} (hs : Ready s) :
    RoundDriver.run { d with separate } limits stats fuel s = d.run limits stats fuel s := by
  have hconverge : ∀ stats priced fuel,
      RoundDriver.converge { d with separate } limits stats priced fuel =
        RoundDriver.converge d limits stats priced fuel := by
    intro stats priced fuel
    induction fuel generalizing stats priced with
    | zero => rfl
    | succ fuel ih =>
      unfold RoundDriver.converge
      simp only [ih]
  have hany : ∀ {α : Type} {m : EStateM (Error K) S α} {s : S} {post : α → S → Prop},
      Ensures m s post fail → Ensures m s post fun _ _ => True :=
    fun hm => hm.mono (fun _ _ => id) fun _ _ _ => trivial
  suffices hagree : Agree (RoundDriver.run { d with separate } limits stats fuel)
      (d.run limits stats fuel) s fun _ _ => True from hagree.1
  induction fuel generalizing stats s with
  | zero => exact .refl (.throw trivial)
  | succ fuel ih =>
    unfold RoundDriver.run RoundDriver.runAsking
    rw [hconverge]
    refine .after (hany (h.converge limits stats 0 fuel hs)) fun r t ht => ?_
    obtain ⟨verdict, stats⟩ := r
    cases verdict with
    | some outcome => exact .refl (.pure trivial)
    | none =>
      have hasked : Ensures (do return d.boundExceeded (← get) : EStateM (Error K) S Bool) t (fun _ u => u = t)
          fun _ _ => True := .bind (.get (.pure rfl))
      refine .after hasked fun exceeded u hu => ?_
      subst hu
      by_cases hexceeded : exceeded = true
      · rw [if_pos hexceeded, if_pos hexceeded]
        exact .refl (.pure trivial)
      rw [if_neg hexceeded, if_neg hexceeded]
      refine .after (hany (h.feasible ht)) fun is u hu => ?_
      by_cases his : is = true
      · rw [if_pos his, if_pos his]
        exact .refl (.pure trivial)
      rw [if_neg his] at hu
      rw [if_neg his, if_neg his]
      refine .bind ⟨hseparate u _ hu, hany (h.separate hu _)⟩ fun sep v hv => ?_
      by_cases hnone : sep.cuts = 0 ∧ sep.localCuts = 0
      · rw [if_pos hnone, if_pos hnone]
        exact .refl (.pure trivial)
      rw [if_neg hnone] at hv
      rw [if_neg hnone, if_neg hnone]
      dsimp only
      have halive : ∀ (stats : RoundStats) alive w, (alive = true → Ready w) → Agree
          (if alive = true then RoundDriver.run { d with separate } limits stats fuel
            else pure (RoundOutcome.cutoff, stats))
          (if alive = true then d.run limits stats fuel else pure (RoundOutcome.cutoff, stats)) w
          fun _ _ => True := by
        intro stats alive w hw
        split
        · next halive => exact ih _ (hw halive)
        · exact .refl (.pure trivial)
      by_cases hlocal : 0 < sep.localCuts
      · rw [if_pos hlocal, if_pos hlocal]
        refine .after (hany (h.propagate hv)) fun alive w hw => ?_
        refine halive _ alive w fun h => ?_
        rw [if_pos h] at hw
        exact hw
      · rw [if_neg hlocal, if_neg hlocal]
        have hsame : Ensures (pure true : EStateM (Error K) S Bool) v (fun _ w => Ready w) fun _ _ => True := .pure hv
        exact .after hsame fun alive w hw => halive _ alive w fun _ => hw

/-! ## Stand-ins -/

/-- Stand-ins for two operations of a run. -/
structure Probe (K σ : Type) where
  /-- Offers a feasible point. -/
  report : Array K → SearchM K σ Bool
  /-- Separates the relaxation solution. -/
  separate : Bool → FocusM K σ Separated

namespace Search

variable [Scalar K]

/-! ### The run with stand-ins -/

def trySolutionWith (p : Probe K σ) (sv : Solver K σ) (x : Array K) : SearchM K σ Bool := do
  let s ← get
  if x.size ≠ s.problem.numVars then pure false
  else if !(x.toList.zipIdx.all fun (a, v) => valueFits sv.settings s v a) then pure false
  else if !s.satisfies sv.settings.feasTol x true then pure false
  else p.report x

def runHeuristicsWith (p : Probe K σ) (sv : Solver K σ) (x : Array K) : SearchM K σ Unit := do
  let s ← get
  let point : HeuristicPoint K := {
    x
    domains := s.domains
    locks := s.locks
    intTol := sv.settings.intFeasTol }
  let rounded := if sv.settings.heuristics then Rounding.point? point else none
  let proposed ← sv.plugins.heuristics.mapM (askHeuristic point)
  (rounded :: proposed).forM fun
    | none => pure ()
    | some x => do
      if ← trySolutionWith p sv x then
        modifyStats fun st => { st with heuristicSolutions := st.heuristicSolutions + 1 }

def branchWith (p : Probe K σ) (sv : Solver K σ) (id : NodeId) (bound : K) (lp : Relaxation K) :
    SearchM K σ NodeResult := do
  if sv.settings.heuristics || !sv.plugins.heuristics.isEmpty then runHeuristicsWith p sv lp.x
  let s ← get
  if (sv.settings.heuristics || !sv.plugins.heuristics.isEmpty) && s.incumbent.isPrunable bound then
    closeNode id .boundExceeded
  else
    match ← decide? bound lp.x with
    | some d => split id d lp.objective (sv.oracle.saveBasis (← get).world)
    | none =>
      countUnreliable
      keepUnresolved id

def runRoundsWith (p : Probe K σ) (sv : Solver K σ) (node : Node K) (depth : Nat) :
    SearchM K σ (RoundOutcome × K × Option (Relaxation K)) := fun s =>
  let limits : RoundLimits := {
    maxRounds := if depth = 0 then sv.settings.maxCutRoundsRoot else sv.settings.maxCutRoundsPerNode
    maxPricingRounds := sv.settings.maxPricingRounds
    pricing := sv.settings.pricingEnabled && !sv.plugins.pricers.isEmpty }
  let focus : Focus K σ := {
    search := s
    node := node.id
    depth
    nodeBound := node.dualBound
    pricerBound := Scalar.negInf
    origin := node.origin }
  match RoundDriver.run { Focus.driver sv with separate := p.separate } limits {} sv.steps focus with
  | .ok (outcome, _) f =>
    let bound :=
      if outcome = .feasible ∨ outcome = .fractional ∨ outcome = .boundExceeded then f.bound
      else Scalar.max node.dualBound f.pricerBound
    .ok (outcome, bound, f.lp) f.search
  | .error e f => .error e f.search

def concludeWith (p : Probe K σ) (sv : Solver K σ) (id : NodeId) (outcome : RoundOutcome) (bound : K)
    (lp : Option (Relaxation K)) : SearchM K σ NodeResult := do
  match outcome, lp with
  | .unbounded, _ => pure .unbounded
  | .infeasible, _ => closeNode id .infeasible
  | .cutoff, _ => closeNode id .infeasible
  | .boundExceeded, _ => closeNode id .boundExceeded
  | .feasible, some lp =>
    let _ ← p.report lp.x
    closeNode id .solved
  | .fractional, some lp => branchWith p sv id bound lp
  | _, _ => branchBlindly id bound

def processNodeWith (p : Probe K σ) (sv : Solver K σ) (id : NodeId) : SearchM K σ NodeResult := do
  let path ← attempt ((← get).tree.pathTo id)
  let depth := path.length - 1
  if !(← enterNode sv path) then closeNode id .infeasible
  else
    let replayed := (← get).domains.focusDelta.length
    if !(← propagate sv) then closeNode id .infeasible
    else
      if depth = 0 then compactFixed
      let node ← attempt ((← get).tree.getNode id)
      warmStart sv node
      let (outcome, bound, lp) ← runRoundsWith p sv node depth
      modify fun s => { s with tree := s.tree.modifyNode id (·.raiseBound bound) }
      let changes := (← get).domains.focusDelta.drop replayed
      onTree (SearchTree.recordChanges id changes)
      concludeWith p sv id outcome bound lp

def stepWith (p : Probe K σ) (sv : Solver K σ) : SearchM K σ (Option Status) := do
  match (← get).limit? sv with
  | some status => pure (some status)
  | none =>
    let incumbent := (← get).incumbent
    match ← onTree (SearchTree.popNext incumbent.isPrunable) with
    | none => pure (some (← get).exhausted)
    | some id =>
      modifyStats fun st => { st with nodesProcessed := st.nodesProcessed + 1 }
      let result ← processNodeWith p sv id
      releaseNodes sv
      match result with
      | .unbounded => pure (some .unbounded)
      | .continue =>
        updateDual
        pure none

def loopWith (p : Probe K σ) (sv : Solver K σ) : Nat → SearchM K σ Status
  | 0 => throw .outOfSteps
  | fuel + 1 => do
    match ← stepWith p sv with
    | some status => pure status
    | none => loopWith p sv fuel

/-- Runs the search with stand-ins for the two operations. -/
def runWith (p : Probe K σ) (sv : Solver K σ) : SearchM K σ (Outcome K) := do
  setUp sv
  if (← get).domains.hasEmptyDomain then return (← get).finish .infeasible
  let _ ← onTree (SearchTree.createRoot Scalar.negInf)
  let status ← loopWith p sv sv.steps
  return (← get).finish status

/-- The operations themselves as stand-ins make the run what it is. -/
theorem runWith_self (sv : Solver K σ) :
    runWith { report := report, separate := Focus.separate sv } sv = run sv := by
  have hloop : ∀ fuel, loopWith { report := report, separate := Focus.separate sv } sv fuel = loop sv fuel := by
    intro fuel
    induction fuel with
    | zero => rfl
    | succ fuel ih =>
      unfold loopWith loop
      rw [ih]
      rfl
  unfold runWith run
  rw [hloop]

/-! ### What holds where a run comes to them -/

variable {sv : Solver K σ}

/-- What the oracle tells of its optimal solutions and the bounds that were set last. -/
structure Answering (sv : Solver K σ) where
  Set : σ → Array K → Array K → Prop
  Within : Array K → Array K → Array K → Prop
  setBounds : ∀ w lower upper, Ensures (sv.oracle.setBounds lower upper) w (fun _ w' => Set w' lower upper)
    fun _ _ => True
  solve : ∀ {w lower upper}, Set w lower upper → Ensures sv.oracle.solve w
    (fun lp w' => Set w' lower upper ∧ (lp.status = .optimal → Within lower upper lp.x)) fun _ _ => True
  clearBasis : ∀ {w lower upper}, Set w lower upper → Set (sv.oracle.clearBasis w) lower upper

/-- Any oracle, of which nothing is asked. -/
def Answering.any (sv : Solver K σ) : Answering sv where
  Set _ _ _ := True
  Within _ _ _ := True
  setBounds _ _ _ := by
    unfold Ensures
    split <;> trivial
  solve _ := by
    unfold Ensures
    split
    · exact ⟨trivial, fun _ => trivial⟩
    · trivial
  clearBasis _ := trivial

/-- The point of a heuristic has passed its checks. -/
structure Proposed (sv : Solver K σ) (s : Search K σ) (x : Array K) : Prop where
  size : x.size = s.problem.numVars
  values : (x.toList.zipIdx.all fun (a, v) => valueFits sv.settings s v a) = true
  satisfied : s.satisfies sv.settings.feasTol x true = true

/-- The relaxation solution has passed its checks. -/
structure Solved (A : Answering sv) (s : Search K σ) (x : Array K) : Prop where
  within : A.Within s.domains.lower s.domains.upper x
  integral : s.isIntegralAt sv.settings.intFeasTol x = true
  satisfied : s.satisfies sv.settings.feasTol x false = true

/-- A property of the search that all its operations keep. Variables are taken out of their
groups only while the problem is as at the start. -/
structure Survives (sv : Solver K σ) (I : Search K σ → Prop) (AtStart : Problem K → Prop) : Prop where
  evolves : Evolves sv fun s t => I s → I t
  settle : ∀ {s : Search K σ} (tree : SearchTree K) (incumbent : Incumbent K), I s → I { s with tree, incumbent }
  counts : ∀ {s : Search K σ} (stats : Stats), I s → I { s with stats }
  compact : ∀ {s : Search K σ}, I s → AtStart s.problem → I { s with
    problem := (s.problem.order.filter s.domains.isGloballyFixed).foldl Problem.compact s.problem }

/-- Stand-ins that do the same where the property holds and the checks were passed. -/
structure Faithful (p : Probe K σ) (A : Answering sv) (I : Search K σ → Prop) : Prop where
  report : ∀ {s x}, I s → Proposed sv s x ∨ Solved A s x → p.report x s = Search.report x s
  separate : ∀ {f : Focus K σ}, I f.search → ∀ enforceOnly, p.separate enforceOnly f = Focus.separate sv enforceOnly f

variable {A : Answering sv} {I : Search K σ → Prop} {AtStart : Problem K → Prop} {p : Probe K σ}
  {s t : Search K σ} {id : NodeId}

omit [Scalar K] in
theorem ensures_onTree {act : TreeM K α} :
    Ensures (onTree act) s (fun _ t => ∃ tree, t = { s with tree }) fun _ _ => True := by
  refine .onPart ?_
  unfold Ensures
  split
  · exact ⟨_, rfl⟩
  · trivial

theorem ensures_report (x : Array K) :
    Ensures (report x) s (fun _ t => ∃ tree incumbent, t = { s with tree, incumbent }) fun _ _ => True := by
  unfold Search.report
  refine .bind (.get ?_)
  split
  · exact .pure ⟨_, _, rfl⟩
  · refine .bind (.set (.bind_mono ensures_onTree ?_))
    rintro _ _ ⟨tree, rfl⟩
    exact .pure ⟨_, _, rfl⟩

namespace Survives

omit [Scalar K] in
/-- What changes as the operations do leaves the property. -/
theorem along {m : SearchM K σ α} (hm : Preserves (fun s t => I s → I t) m) (hs : I s) :
    Ensures m s (fun _ t => I t) fun _ _ => True :=
  (hm s).mono (fun _ _ h => h hs) fun _ _ _ => trivial

variable (hI : Survives sv I AtStart)

include hI

theorem clerical {m : SearchM K σ α} (hm : Preserves Clerical m) (hs : I s) :
    Ensures m s (fun _ t => I t) fun _ _ => True :=
  along (hI.evolves.toEnters.of_clerical hm) hs

theorem modifyStats (hs : I s) (f : Stats → Stats) :
    Ensures (modifyStats f) s (fun _ t => I t) fun _ _ => True :=
  .modify (hI.counts _ hs)

theorem onTree {act : TreeM K α} (hs : I s) : Ensures (onTree act) s (fun _ t => I t) fun _ _ => True := by
  refine ensures_onTree.mono ?_ fun _ _ => id
  rintro _ _ ⟨tree, rfl⟩
  exact hI.settle tree s.incumbent hs

theorem closeNode (hs : I s) (reason : PruneReason) :
    Ensures (closeNode id reason) s (fun _ t => I t) fun _ _ => True :=
  .bind_mono (hI.modifyStats hs _) fun _ _ ht =>
    .bind_mono (hI.onTree ht) fun _ _ hu => .pure hu

theorem keepUnresolved (hs : I s) : Ensures (keepUnresolved id) s (fun _ t => I t) fun _ _ => True :=
  .bind_mono (hI.onTree hs) fun _ _ ht => .pure ht

theorem split (hs : I s) (d : BranchingDecision K) (objective : K) (basis : Option SavedBasis) :
    Ensures (split id d objective basis) s (fun _ t => I t) fun _ _ => True :=
  .bind_mono (hI.onTree hs) fun _ _ ht =>
    .bind_mono (hI.modifyStats ht _) fun _ _ hu => .pure hu

theorem branchBlindly (hs : I s) (bound : K) :
    Ensures (branchBlindly id bound) s (fun _ t => I t) fun _ _ => True := by
  refine .bind_mono (hI.modifyStats hs _) fun _ t ht => .bind (.get (.bind_mono
    (hI.clerical (attempt_preserves _) ht) fun choice u hu => ?_))
  split
  · exact hI.split hu ..
  · exact hI.keepUnresolved hu

/-! ### Points that are offered -/

variable (hp : Faithful p A I)

include hp

theorem report (hs : I s) {x : Array K} (hx : Proposed sv s x ∨ Solved A s x) :
    Agree (p.report x) (Search.report x) s fun _ t => I t := by
  refine ⟨hp.report hs hx, (ensures_report x).mono ?_ fun _ _ => id⟩
  rintro _ _ ⟨tree, incumbent, rfl⟩
  exact hI.settle tree incumbent hs

theorem trySolution (hs : I s) (x : Array K) :
    Agree (trySolutionWith p sv x) (trySolution sv x) s fun _ t => I t := by
  unfold trySolutionWith Search.trySolution
  refine .get ?_
  by_cases hsize : x.size ≠ s.problem.numVars
  · rw [if_pos hsize, if_pos hsize]
    exact .refl (.pure hs)
  rw [if_neg hsize, if_neg hsize]
  by_cases hvalues : (!(x.toList.zipIdx.all fun (a, v) => valueFits sv.settings s v a)) = true
  · rw [if_pos hvalues, if_pos hvalues]
    exact .refl (.pure hs)
  rw [if_neg hvalues, if_neg hvalues]
  by_cases hsatisfied : (!s.satisfies sv.settings.feasTol x true) = true
  · rw [if_pos hsatisfied, if_pos hsatisfied]
    exact .refl (.pure hs)
  rw [if_neg hsatisfied, if_neg hsatisfied]
  refine hI.report hp hs (.inl ⟨not_not.mp hsize, ?_, ?_⟩)
  · simpa using hvalues
  · simpa using hsatisfied

theorem runHeuristics (hs : I s) (x : Array K) :
    Agree (runHeuristicsWith p sv x) (runHeuristics sv x) s fun _ t => I t := by
  unfold runHeuristicsWith Search.runHeuristics
  refine .get (.after (hI.clerical (.mapM fun heur => askHeuristic_clerical _ heur) hs) fun proposed t ht => ?_)
  refine .forM (fun point u hu => ?_) ht
  cases point with
  | none => exact .refl (.pure hu)
  | some y =>
    refine .bind (hI.trySolution hp hu y) fun better v hv => .refl ?_
    split
    · exact hI.modifyStats hv _
    · exact .pure hv

theorem branch (hs : I s) (bound : K) (lp : Relaxation K) :
    Agree (branchWith p sv id bound lp) (branch sv id bound lp) s fun _ t => I t := by
  have hrest : ∀ t, I t → Ensures (do
      let s ← get
      if (sv.settings.heuristics || !sv.plugins.heuristics.isEmpty) && s.incumbent.isPrunable bound then
        Search.closeNode id .boundExceeded
      else
        match ← Search.decide? bound lp.x with
        | some d => Search.split id d lp.objective (sv.oracle.saveBasis (← get).world)
        | none =>
          countUnreliable
          Search.keepUnresolved id) t (fun _ u => I u) fun _ _ => True := by
    intro t ht
    refine .bind (.get ?_)
    split
    · exact hI.closeNode ht _
    · refine .bind_mono (hI.clerical (decide?_clerical bound lp.x) ht) fun choice u hu => ?_
      split
      · exact .bind (.get (hI.split hu ..))
      · exact .bind_mono (hI.modifyStats hu _) fun _ _ hv => hI.keepUnresolved hv
  unfold branchWith Search.branch
  by_cases hheuristics : (sv.settings.heuristics || !sv.plugins.heuristics.isEmpty) = true
  · rw [if_pos hheuristics, if_pos hheuristics]
    exact .bind (hI.runHeuristics hp hs lp.x) fun _ t ht => .refl (hrest t ht)
  · rw [if_neg hheuristics, if_neg hheuristics]
    exact .refl (hrest s hs)

theorem conclude (hs : I s) {outcome : RoundOutcome} {lp : Option (Relaxation K)}
    (hlp : outcome = .feasible → ∃ r, lp = some r ∧ Solved A s r.x) (bound : K) :
    Agree (concludeWith p sv id outcome bound lp) (conclude sv id outcome bound lp) s fun _ t => I t := by
  cases outcome with
  | unbounded => exact .refl (.pure hs)
  | infeasible => exact .refl (hI.closeNode hs _)
  | cutoff => exact .refl (hI.closeNode hs _)
  | boundExceeded => exact .refl (hI.closeNode hs _)
  | feasible =>
    obtain ⟨r, rfl, hr⟩ := hlp rfl
    exact .bind (hI.report hp hs (.inr hr)) fun _ t ht => .refl (hI.closeNode ht _)
  | fractional =>
    cases lp with
    | none => exact .refl (hI.branchBlindly hs bound)
    | some r => exact hI.branch hp hs bound r
  | unreliable => exact .refl (hI.branchBlindly hs bound)

end Survives

/-! ### The rounds -/

/-- An optimal solution is to the bounds what the oracle tells. -/
theorem ensures_solve (A : Answering sv) (f : Focus K σ) : Ensures (Focus.solve sv) f (fun status g =>
    status = .optimal → ∃ lp, g.lp = some lp ∧ A.Within g.search.domains.lower g.search.domains.upper lp.x)
    fun _ _ => True := by
  have honce : ∀ g : Focus K σ, A.Set g.search.world f.search.domains.lower f.search.domains.upper →
      g.search.domains = f.search.domains → Ensures (Focus.solveOnce sv) g (fun lp h =>
        A.Set h.search.world f.search.domains.lower f.search.domains.upper ∧ h.search.domains = f.search.domains ∧
        (lp.status = .optimal → A.Within f.search.domains.lower f.search.domains.upper lp.x)) fun _ _ => True := by
    intro g hset hdomains
    refine .onPart (.bind (.onPart ((A.solve hset).mono (fun lp w hw => ?_) fun _ _ => id)))
    exact .bind (.modify (.pure ⟨hw.1, hdomains, hw.2⟩))
  have hprime : Ensures (do
      flushStaleRows sv
      let d := (← get).domains
      onWorld (sv.oracle.setBounds d.lower d.upper)) f.search
      (fun _ t => A.Set t.world f.search.domains.lower f.search.domains.upper ∧ t.domains = f.search.domains)
      fun _ _ => True := by
    refine .bind ((flushStaleRows_clerical f.search).mono (fun _ t ht => .bind (.get ?_)) fun _ _ _ => trivial)
    have hdomains : t.domains = f.search.domains := ht.part Search.domains fun _ _ _ _ _ => rfl
    rw [hdomains]
    exact .onPart ((A.setBounds _ _ _).mono (fun _ w hw => ⟨hw, hdomains⟩) fun _ _ => id)
  have hreliably : ∀ g : Focus K σ, A.Set g.search.world f.search.domains.lower f.search.domains.upper →
      g.search.domains = f.search.domains → Ensures (Focus.solveReliably sv) g (fun lp h =>
        h.search.domains = f.search.domains ∧
        (lp.status = .optimal → A.Within f.search.domains.lower f.search.domains.upper lp.x)) fun _ _ => True := by
    intro g hset hdomains
    unfold Focus.solveReliably
    refine .bind_mono (honce g hset hdomains) fun lp h hh => ?_
    split
    · refine .bind (.onPart (.bind (.modify (.modify ?_))))
      exact .mono (honce _ (A.clearBasis hh.1) hh.2.1) (fun _ _ h => h.2) fun _ _ => id
    · exact .pure hh.2
  unfold Focus.solve
  refine .bind (.onPart (hprime.mono (fun _ t ht => ?_) fun _ _ => id))
  refine .bind_mono (hreliably { f with search := t } ht.1 ht.2) fun lp g hg => ?_
  obtain ⟨hdomains, hwithin⟩ := hg
  by_cases hoptimal : lp.status = .optimal
  · rw [if_pos hoptimal]
    have hages : Ensures (Focus.ageCuts lp : FocusM K σ Unit) g (fun _ h => h.search.domains = f.search.domains)
        fun _ _ => True := by
      unfold Focus.ageCuts
      exact .onPart (.bind (.modifyGet (.modify hdomains)))
    have hlearns : ∀ h : Focus K σ, h.search.domains = f.search.domains → Ensures (Focus.learnGain lp) h
        (fun _ h => h.search.domains = f.search.domains) fun _ _ => True := by
      refine fun h hh => .modify ?_
      split <;> exact hh
    refine .bind_mono hages fun _ h hh => .bind_mono (hlearns h hh) fun _ h hh => ?_
    refine .bind (.modify (.bind (.modify (.pure fun _ => ⟨lp, rfl, ?_⟩))))
    dsimp only
    rw [hh]
    exact hwithin hoptimal
  · rw [if_neg hoptimal]
    exact .bind (.modify (.pure fun h => absurd h hoptimal))

/-- Pricing that adds no column leaves the domains and the solution alone. -/
theorem ensures_price (f : Focus K σ) : Ensures (Focus.price sv) f (fun added g =>
    added = 0 → g.lp = f.lp ∧ g.search.domains = f.search.domains) fun _ _ => True := by
  let Same (f g : Focus K σ) : Prop := g.lp = f.lp ∧ g.search.domains = f.search.domains
  have hrefl : Std.Refl Same := ⟨fun _ => ⟨rfl, rfl⟩⟩
  have htrans : IsTrans (Focus K σ) Same := ⟨fun _ _ _ h h' => ⟨h'.1.trans h.1, h'.2.trans h.2⟩⟩
  have hask : ∀ (q : PricingPoint K) (pricer : Pricer K σ), Preserves Same (Focus.askPricer q pricer) := by
    intro q pricer
    unfold Focus.askPricer
    refine .bind (.onPart fun g => (onWorld_clerical _ g.search).mono ?_ ?_) fun found => ?_
    · exact fun _ t ht => ⟨rfl, ht.part Search.domains fun _ _ _ _ _ => rfl⟩
    · exact fun _ t ht => ⟨rfl, ht.part Search.domains fun _ _ _ _ _ => rfl⟩
    · split
      · exact .pure _
      · dsimp only
        split
        · exact .bind (.throw _) fun _ => .bind (.modify fun _ => ⟨rfl, rfl⟩) fun _ => .pure _
        · exact .bind (.modify fun _ => ⟨rfl, rfl⟩) fun _ => .pure _
  unfold Focus.price
  refine .bind (.get ?_)
  split
  · exact .pure fun _ => ⟨rfl, rfl⟩
  · next lp _ =>
    refine .bind ((Preserves.mapM (R := Same) (fun pricer => hask _ pricer) f).mono (fun columns g hg => ?_)
      fun _ _ _ => trivial)
    by_cases hnone : columns.flatten = []
    · rw [hnone]
      exact .bind (.pure (.pure fun _ => hg))
    · have hadds : Ensures (columns.flatten.forM fun c => Focus.onSearch (Search.addPricedColumn sv c.1 c.2)) g
          (fun _ _ => True) fun _ _ => True := by
        unfold Ensures
        split <;> trivial
      exact .bind_mono hadds fun _ u _ => .pure fun hzero => absurd (List.eq_nil_of_length_eq_zero hzero) hnone

theorem ensures_isFeasible (f : Focus K σ) : Ensures (Focus.isFeasible sv) f (fun is g => g = f ∧
    (is = true → ∃ lp, f.lp = some lp ∧ f.search.isIntegralAt sv.settings.intFeasTol lp.x = true ∧
      f.search.satisfies sv.settings.feasTol lp.x false = true)) fun _ _ => True := by
  unfold Focus.isFeasible
  refine .bind (.get ?_)
  split
  · exact .pure ⟨rfl, nofun⟩
  · next lp hlp => exact .pure ⟨rfl, fun h => ⟨lp, hlp, Bool.and_eq_true_iff.mp h⟩⟩

/-- What separation leaves alone. -/
theorem separates_domains : Separates sv fun s t : Search K σ => t.domains = s.domains where
  clerical h := h.part Search.domains fun _ _ _ _ _ => rfl
  trans h h' := h'.trans h
  separateInactive _ _ _ := rfl
  addCut _ _ := rfl
  addRow _ _ _ := rfl
  register _ := rfl
  lockCons _ _ _ := rfl

/-- The relaxation has been solved within the bounds of the search. -/
def Bounded (A : Answering sv) (f : Focus K σ) : Prop :=
  ∃ lp, f.lp = some lp ∧ A.Within f.search.domains.lower f.search.domains.upper lp.x

/-- **What the operations of the rounds ensure** of a property that each of them keeps, of the
point that is found feasible, and of the one that is not. -/
theorem Cycles.answering (h : Cycles sv fun s t => I s → I t) (A : Answering sv) : (Focus.driver sv).Contract
    (fun f => I f.search) (fun f => I f.search ∧ Bounded A f)
    (fun outcome f => I f.search ∧ (outcome = .feasible → ∃ lp, f.lp = some lp ∧ Solved A f.search lp.x) ∧
      (outcome = .fractional → Bounded A f)) fun _ f => I f.search := by
  have hkeeps : ∀ {α : Type} {m : FocusM K σ α}, Preserves (Rounds fun s t => I s → I t) m → ∀ {f}, I f.search →
      Ensures m f (fun _ g => I g.search) fun _ g => I g.search :=
    fun hm f hf => (hm f).mono (fun _ _ hg => hg.1 hf) fun _ _ hg => hg.1 hf
  refine ⟨id, And.left, fun {f} hf => ?_, fun {f} hf => ?_, fun hf _ => ⟨hf.1, nofun, nofun⟩,
    fun {f} hf => ?_, fun {f} hf enforceOnly => ?_, fun {f} hf => ?_⟩
  · refine ((hkeeps h.solve hf).and (ensures_solve A f)).mono ?_ fun _ _ => And.left
    rintro status g ⟨hg, hwithin⟩
    cases status with
    | optimal => exact ⟨hg, hwithin rfl⟩
    | infeasible => exact ⟨hg, nofun, nofun⟩
    | unbounded => exact ⟨hg, nofun, nofun⟩
    | limitReached => exact ⟨hg, nofun, nofun⟩
    | numericalTrouble => exact ⟨hg, nofun, nofun⟩
  · refine ((hkeeps h.price hf.1).and (ensures_price f)).mono ?_ fun _ _ => And.left
    rintro added g ⟨hg, hsame⟩
    split
    · next hnone =>
      obtain ⟨hlp, hdomains⟩ := hsame hnone
      refine ⟨hg, ?_⟩
      unfold Bounded
      rw [hlp, hdomains]
      exact hf.2
    · exact ⟨hg, hg, nofun, nofun⟩
  · refine ((hkeeps h.isFeasible hf.1).and (ensures_isFeasible f)).mono ?_ fun _ _ => And.left
    rintro is _ ⟨-, rfl, hchecked⟩
    split
    · next his =>
      refine ⟨hf.1, fun _ => ?_, nofun⟩
      obtain ⟨lp, hlp, hintegral, hsatisfied⟩ := hchecked his
      obtain ⟨lp', hlp', hwithin⟩ := hf.2
      obtain rfl := Option.some.inj (hlp.symm.trans hlp')
      exact ⟨lp, hlp, hwithin, hintegral, hsatisfied⟩
    · exact hf
  · refine ((hkeeps (h.separate enforceOnly) hf.1).and (separates_domains.ensures_separate enforceOnly f)).mono ?_
      fun _ _ => And.left
    rintro sep g ⟨hg, t, rfl, hdomains⟩
    split
    · refine ⟨hg, nofun, fun _ => ?_⟩
      unfold Bounded
      rw [hdomains]
      exact hf.2
    · exact hg
  · refine (hkeeps (Cycles.onSearch h.propagate'') hf).mono (fun alive g hg => ?_) fun _ _ => id
    split
    · exact hg
    · exact ⟨hg, nofun, nofun⟩

namespace Survives

variable (hI : Survives sv I AtStart)

include hI

variable (hp : Faithful p A I)

include hp

theorem runRounds (hs : I s) (node : Node K) (depth : Nat) :
    Agree (runRoundsWith p sv node depth) (runRounds sv node depth) s fun r t =>
      I t ∧ (r.1 = .feasible → ∃ lp, r.2.2 = some lp ∧ Solved A t lp.x) := by
  let limits : RoundLimits := {
    maxRounds := if depth = 0 then sv.settings.maxCutRoundsRoot else sv.settings.maxCutRoundsPerNode
    maxPricingRounds := sv.settings.maxPricingRounds
    pricing := sv.settings.pricingEnabled && !sv.plugins.pricers.isEmpty }
  let focus : Focus K σ := {
    search := s
    node := node.id
    depth
    nodeBound := node.dualBound
    pricerBound := Scalar.negInf
    origin := node.origin }
  have hcontract := hI.evolves.toCycles.answering A
  have hsame : RoundDriver.run { Focus.driver sv with separate := p.separate } limits {} sv.steps focus = _ :=
    hcontract.run_congr (fun f enforceOnly hf => hp.separate hf.1 enforceOnly) limits {} sv.steps hs
  refine ⟨?_, ?_⟩
  · unfold runRoundsWith Search.runRounds
    dsimp only
    rewrite [hsame]
    rfl
  · refine (Cycles.ensures_runRounds hcontract fun f hf _ _ _ _ => hf ▸ hs).mono ?_ fun _ _ _ => trivial
    rintro r _ ⟨f, rfl, hlp, ⟨hf, hfeasible, -⟩, -⟩
    rw [← hlp]
    exact ⟨hf, hfeasible⟩

/-- **Processing a node** with stand-ins. -/
theorem processNode (hs : I s)
    (hstart : ∀ path, s.tree.pathTo id = .ok path → path.length - 1 = 0 → AtStart s.problem) :
    Agree (processNodeWith p sv id) (processNode sv id) s fun _ t => I t := by
  have hrest : ∀ t, I t → ∀ replayed depth, Agree (do
      let node ← Search.attempt ((← get).tree.getNode id)
      Search.warmStart sv node
      let (outcome, bound, lp) ← runRoundsWith p sv node depth
      modify fun s => { s with tree := s.tree.modifyNode id (·.raiseBound bound) }
      let changes := (← get).domains.focusDelta.drop replayed
      Search.onTree (SearchTree.recordChanges id changes)
      concludeWith p sv id outcome bound lp) (do
      let node ← Search.attempt ((← get).tree.getNode id)
      Search.warmStart sv node
      let (outcome, bound, lp) ← Search.runRounds sv node depth
      modify fun s => { s with tree := s.tree.modifyNode id (·.raiseBound bound) }
      let changes := (← get).domains.focusDelta.drop replayed
      Search.onTree (SearchTree.recordChanges id changes)
      Search.conclude sv id outcome bound lp) t fun _ u => I u := by
    intro t ht replayed depth
    refine .get (.after (hI.clerical (attempt_preserves _) ht) fun node u hu => ?_)
    refine .after (hI.clerical (warmStart_clerical node) hu) fun _ v hv => ?_
    refine .bind (hI.runRounds hp hv node depth) ?_
    rintro ⟨outcome, bound, lp⟩ w ⟨hw, hlp⟩
    have hraised : Ensures (modify fun (s : Search K σ) => { s with tree := s.tree.modifyNode id (·.raiseBound bound) })
        w (fun _ x => ∃ tree, x = { w with tree }) fun (_ : Error K) _ => True := .modify ⟨_, rfl⟩
    refine .after hraised ?_
    rintro _ _ ⟨tree, rfl⟩
    refine .get (.after ensures_onTree ?_)
    rintro _ _ ⟨tree', rfl⟩
    refine hI.conclude hp (hI.settle tree' w.incumbent hw) (fun hfeasible => ?_) bound
    obtain ⟨r, rfl, hr⟩ := hlp hfeasible
    exact ⟨r, rfl, ⟨hr.within, hr.integral, hr.satisfied⟩⟩
  unfold processNodeWith Search.processNode
  refine .get (.after (ensures_attempt _ s |>.mono (fun _ _ h => h) fun _ _ _ => trivial) ?_)
  rintro path _ ⟨rfl, hpath⟩
  -- neither entering the node nor propagation changes the problem
  have hsame : Enters sv fun s t : Search K σ => (I s → I t) ∧ t.problem = s.problem := by
    refine ⟨fun h => ⟨hI.evolves.clerical h, h.part Search.problem fun _ _ _ _ _ => rfl⟩,
      fun h h' => ⟨fun hs => h'.1 (h.1 hs), h'.2.trans h.2⟩, fun hpath => ⟨hI.evolves.restore hpath, rfl⟩,
      fun s path => ⟨hI.evolves.switchPath s path, rfl⟩, fun s => ?_⟩
    exact (hI.evolves.propagate s).mono (fun _ _ h => ⟨h, rfl⟩) fun _ _ h => ⟨h, rfl⟩
  refine .after ((hsame.enterNode hpath).mono (fun _ _ h => h) fun _ _ _ => trivial) fun feasible t ht => ?_
  dsimp only
  by_cases hfeasible : (!feasible) = true
  · rw [if_pos hfeasible, if_pos hfeasible]
    exact .refl (hI.closeNode (ht.1 hs) _)
  rw [if_neg hfeasible, if_neg hfeasible]
  refine .get (.after ((hsame.propagate' t).mono (fun _ _ h => h) fun _ _ _ => trivial) fun alive u hu => ?_)
  have huI := hu.1 (ht.1 hs)
  by_cases halive : (!alive) = true
  · rw [if_pos halive, if_pos halive]
    exact .refl (hI.closeNode huI _)
  rw [if_neg halive, if_neg halive]
  by_cases hdepth : path.length - 1 = 0
  · rw [if_pos hdepth, if_pos hdepth]
    have hcompact : Ensures (compactFixed : SearchM K σ Unit) u (fun _ v => I v) fun _ _ => True :=
      .modify (hI.compact huI (by rw [hu.2, ht.2]; exact hstart path hpath hdepth))
    exact .after hcompact fun _ v hv => hrest v hv ..
  · rw [if_neg hdepth, if_neg hdepth]
    exact hrest u huI ..

/-! ### The search -/

omit hp in
theorem releaseNodes (hs : I s) : Ensures (releaseNodes sv) s (fun _ t => I t) fun _ _ => True := by
  have := hI.evolves.toEnters.isRefl
  have := hI.evolves.toEnters.isTrans
  refine .bind (.modifyGet ?_)
  exact along (.forM fun node => hI.evolves.releaseNode' node) (hI.settle _ _ hs)

/-- **One iteration** with stand-ins. -/
theorem step [IsTrans K (· < ·)] (hs : I s) (haccounted : s.Accounted)
    (hbegun : s.tree.Started ∨ AtStart s.problem) :
    Agree (stepWith p sv) (step sv) s fun _ t => I t := by
  unfold stepWith Search.step
  refine .get ?_
  cases s.limit? sv with
  | some status => exact .refl (.pure hs)
  | none =>
    refine .get (.after ensures_onTree.self fun next t ht => ?_)
    obtain ⟨hpop, tree, rfl⟩ := ht
    have ht : I { s with tree } := hI.settle tree s.incumbent hs
    cases next with
    | none => exact .refl (.bind (.get (.pure ht)))
    | some id =>
      have hcounted : Ensures (Search.modifyStats fun st => { st with nodesProcessed := st.nodesProcessed + 1 })
          { s with tree } (fun _ t => I t ∧ t.tree = tree ∧ t.problem = s.problem) fun (_ : Error K) _ => True :=
        .modify ⟨hI.counts _ ht, rfl, rfl⟩
      refine .after hcounted fun _ u hu => ?_
      obtain ⟨huI, hutree, huproblem⟩ := hu
      refine .bind (hI.processNode hp huI fun path hpath hdepth => ?_) fun result v hv => .refl ?_
      · rcases hbegun with hstarted | hstart
        · rw [hutree] at hpath
          exact absurd hdepth (haccounted.popNext_deep hstarted hpop hpath)
        · exact huproblem ▸ hstart
      · refine .bind_mono (hI.releaseNodes hv) fun _ w hw => ?_
        split
        · exact .pure hw
        · exact .bind (.modify (.pure (hI.settle _ _ hw)))

variable [Scalar.Ordered K] {m : Model K σ} {w : σ}

theorem loop (hs : I s) (htol : 0 ≤ sv.settings.feasTol) (hvisits : Visits sv (.ofModel sv m w) s)
    (hstart : s.tree.Started ∨ AtStart s.problem) (fuel : Nat) : loopWith p sv fuel s = loop sv fuel s := by
  suffices h : Agree (loopWith p sv fuel) (Search.loop sv fuel) s fun _ _ => True from h.1
  induction fuel generalizing s with
  | zero => exact .refl (.throw trivial)
  | succ fuel ih =>
    obtain ⟨haccounted, hbacked, hbegun⟩ := hvisits.accounted htol
    obtain ⟨hsame, hstep⟩ := hI.step hp hs haccounted hstart
    refine .bind ⟨hsame, hstep.self⟩ fun answer t ⟨hreturns, ht⟩ => ?_
    cases answer with
    | some status => exact .refl (.pure trivial)
    | none =>
      have hstarted := ((haccounted.step hbacked hbegun hreturns).2.1 rfl).2
      exact ih ht (hvisits.next hreturns) (.inl hstarted)

/-- **Stand-ins that do the same wherever the property holds leave the run as it is.** So the
property holds whenever a run comes to one of the two operations. -/
theorem run (htol : 0 ≤ sv.settings.feasTol) (hs : I (.ofModel sv m w)) (hstart : AtStart (ofModel sv m w).problem) :
    runWith p sv (.ofModel sv m w) = run sv (.ofModel sv m w) := by
  suffices h : Agree (runWith p sv) (Search.run sv) (.ofModel sv m w) fun _ _ => True from h.1
  have hsetUp : Ensures (setUp sv) (.ofModel sv m w) (fun _ t => I t ∧ t.problem = (ofModel sv m w).problem)
      fun _ _ => True :=
    (setUp_clerical _).mono (fun _ _ h => ⟨hI.evolves.clerical h hs, h.part Search.problem fun _ _ _ _ _ => rfl⟩)
      fun _ _ _ => trivial
  refine .after hsetUp.self fun _ s ⟨hset, hs, hproblem⟩ => .get ?_
  by_cases hempty : s.domains.hasEmptyDomain = true
  · rw [if_pos hempty, if_pos hempty]
    exact .refl (.bind (.get (.pure trivial)))
  · rw [if_neg hempty, if_neg hempty]
    refine .after ensures_onTree.self fun id t ht => ?_
    obtain ⟨hroot, tree, rfl⟩ := ht
    have hdomains : s.domains.hasEmptyDomain = false := by simpa using hempty
    have hloop := hI.loop hp (hI.settle tree s.incumbent hs) htol (.root hset hdomains hroot)
      (.inr (hproblem ▸ hstart)) sv.steps
    have hany : ∀ s, Ensures (Search.loop sv sv.steps) s (fun _ _ => True) fun _ _ => True := fun s => by
      unfold Ensures
      split <;> trivial
    exact .bind ⟨hloop, hany _⟩ fun status u _ => .refl (.bind (.get (.pure trivial)))

end Survives

/-! ## What holds whenever -/

/-- What holds whenever the run comes to separation: another way to separate may do anything
where it does not hold, and the run stays as it is. -/
def WheneverSeparating (sv : Solver K σ) (s : Search K σ) (P : Focus K σ → Bool → Prop) : Prop :=
  ∀ separate : Bool → FocusM K σ Separated,
    (∀ f enforceOnly, P f enforceOnly → separate enforceOnly f = Focus.separate sv enforceOnly f) →
    runWith { report := report, separate } sv s = run sv s

/-- What holds whenever the run offers a point. -/
def WheneverOffering (sv : Solver K σ) (s : Search K σ) (P : Search K σ → Array K → Prop) : Prop :=
  ∀ offer : Array K → SearchM K σ Bool, (∀ s x, P s x → offer x s = report x s) →
    runWith { report := offer, separate := Focus.separate sv } sv s = run sv s

namespace Survives

variable [Scalar.Ordered K] {m : Model K σ} {w : σ} (hI : Survives sv I AtStart)

include hI

theorem separating (A : Answering sv) (htol : 0 ≤ sv.settings.feasTol) (hs : I (.ofModel sv m w))
    (hstart : AtStart (ofModel sv m w).problem) :
    WheneverSeparating sv (.ofModel sv m w) fun f _ => I f.search :=
  fun _ hsame => hI.run (A := A) ⟨fun _ _ => rfl, fun hf enforceOnly => hsame _ enforceOnly hf⟩ htol hs hstart

theorem offering (A : Answering sv) (htol : 0 ≤ sv.settings.feasTol) (hs : I (.ofModel sv m w))
    (hstart : AtStart (ofModel sv m w).problem) :
    WheneverOffering sv (.ofModel sv m w) fun s x => I s ∧ (Proposed sv s x ∨ Solved A s x) :=
  fun _ hsame => hI.run (A := A) ⟨fun hs hx => hsame _ _ ⟨hs, hx⟩, fun _ _ => rfl⟩ htol hs hstart

end Survives

theorem WheneverSeparating.mono {s : Search K σ} {P Q : Focus K σ → Bool → Prop} (h : WheneverSeparating sv s P)
    (hPQ : ∀ f enforceOnly, P f enforceOnly → Q f enforceOnly) : WheneverSeparating sv s Q :=
  fun separate hsame => h separate fun f enforceOnly hf => hsame f enforceOnly (hPQ f enforceOnly hf)

theorem WheneverOffering.mono {s : Search K σ} {P Q : Search K σ → Array K → Prop} (h : WheneverOffering sv s P)
    (hPQ : ∀ s x, P s x → Q s x) : WheneverOffering sv s Q :=
  fun offer hsame => h offer fun s x hs => hsame s x (hPQ s x hs)

end Search

end BranchAndCut

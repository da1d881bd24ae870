import BranchAndCut.Proofs.Solve.Rounds
import BranchAndCut.Solve.Run

/-! # What the operations of a search may change

Whatever oracle, plugins and families of constraints do, most operations change only the
relaxation and its bookkeeping; the others change one more part each, in one way. So what
these changes allow, a whole call of an operation allows. -/

namespace BranchAndCut

variable {K σ : Type}

namespace Handlers

variable [Scalar K]

/-- The custom families stay as they are when a coefficient is added. -/
theorem addCoefficient_custom (hs : Handlers K σ) (w : σ) (h : HandlerId) (c : Nat) (v : VarId) (a : K) :
    Ensures (addCoefficient h c v a) (hs, w) (fun _ t => t.1.custom = hs.custom) fun _ t => t.1.custom = hs.custom := by
  unfold addCoefficient
  refine .bind (.get ?_)
  dsimp only
  split
  · split
    · exact .set rfl
    · exact .throw rfl
  · exact .throw rfl
  · split
    · exact .set rfl
    · exact .bind (.set (.throw rfl))
  · exact .throw rfl

omit [Scalar K] in
theorem delete_custom (hs : Handlers K σ) (w : σ) (h : HandlerId) (c : Nat) :
    (hs.delete w h c).1.custom = hs.custom := by
  unfold delete
  split <;> rfl

end Handlers

namespace Search

/-- The second state differs from the first only in the relaxation and in what was learned
and counted; no node was counted, and the tolerance of branching stays. -/
def Clerical (s t : Search K σ) : Prop :=
  t = { s with
    world := t.world
    lpRows := t.lpRows
    staleCutRows := t.staleCutRows
    stats := { t.stats with
      nodesProcessed := s.stats.nodesProcessed
      nodesBranched := s.stats.nodesBranched
      nodesPruned := s.stats.nodesPruned }
    brancher := { t.brancher with intTol := s.brancher.intTol } }

instance : Std.Refl (Clerical : Search K σ → Search K σ → Prop) := ⟨fun _ => rfl⟩

instance : IsTrans (Search K σ) Clerical := ⟨fun s t u hst htu => by
  unfold Clerical at *
  rw [htu, hst]⟩

theorem Clerical.part {α : Type} {s t : Search K σ} (h : s.Clerical t) (f : Search K σ → α)
    (hf : ∀ world lpRows staleCutRows stats brancher,
      f { s with world, lpRows, staleCutRows, stats, brancher } = f s) : f t = f s := by
  unfold Clerical at h
  exact (congrArg f h).trans (hf ..)

variable {sv : Solver K σ}

/-! ## Rows of the relaxation -/

theorem onWorld_clerical {α : Type} (act : EStateM (Error K) σ α) :
    Preserves Clerical (onWorld act : SearchM K σ α) := by
  refine .onPart fun s => ?_
  unfold Ensures
  split <;> rfl

theorem modifyStats_clerical {f : Stats → Stats} (hf : ∀ st, f st = { f st with
      nodesProcessed := st.nodesProcessed
      nodesBranched := st.nodesBranched
      nodesPruned := st.nodesPruned }) : Preserves Clerical (modifyStats f : SearchM K σ Unit) :=
  .modify fun s => by
    show { s with stats := f s.stats } = { s with stats := _ }
    rw [hf s.stats]

theorem ensures_attempt {α : Type} (r : Except (Error K) α) (s : Search K σ) :
    Ensures (attempt r) s (fun a t => t = s ∧ r = .ok a) fun _ t => t = s := by
  cases r with
  | ok a => exact .pure ⟨rfl, rfl⟩
  | error e => exact .throw rfl

theorem attempt_preserves {R : Search K σ → Search K σ → Prop} [Std.Refl R] {α : Type} (r : Except (Error K) α) :
    Preserves R (attempt r) := by
  cases r with
  | ok a => exact .pure a
  | error e => exact .throw e

theorem addConsRows_clerical (id : ConsId) : Preserves Clerical (addConsRows sv id) := by
  unfold addConsRows
  refine .get_bind fun s => ?_
  dsimp only
  split
  · refine Preserves.bind (R := Clerical) (onWorld_clerical _) (fun _ => ?_) s
    exact .modify fun _ => rfl
  · exact .pure rfl

theorem removeConsRows_clerical (id : ConsId) : Preserves Clerical (removeConsRows sv id) := by
  unfold removeConsRows
  refine .get_bind fun s => ?_
  split
  · exact .pure rfl
  · refine Preserves.bind (R := Clerical) ?_ (fun _ => onWorld_clerical _) s
    exact .modify fun _ => rfl

theorem syncRows_clerical (delta : ActivationDelta) : Preserves Clerical (syncRows sv delta) :=
  .bind (.forM removeConsRows_clerical) fun _ => .forM addConsRows_clerical

theorem addCutRow_clerical (id : Nat) : Preserves Clerical (addCutRow sv id) := by
  unfold addCutRow
  refine .get_bind fun s => ?_
  split
  · exact .throw rfl
  · refine Preserves.bind (R := Clerical) ?_ (fun _ => onWorld_clerical _) s
    exact .modify fun _ => rfl

theorem retireCutRows_clerical (ids : List Nat) : Preserves Clerical (retireCutRows ids : SearchM K σ Unit) :=
  .modify fun _ => rfl

theorem flushStaleRows_clerical : Preserves Clerical (flushStaleRows sv) := by
  unfold flushStaleRows
  refine .get_bind fun s => ?_
  dsimp only
  split
  · refine Preserves.bind (R := Clerical) ?_ (fun _ => onWorld_clerical _) s
    exact .modify fun _ => rfl
  · exact .pure rfl

variable [Scalar K]

theorem setUp_clerical : Preserves Clerical (setUp sv) :=
  .get_bind fun s => (Preserves.bind (onWorld_clerical _) fun _ => .forM addConsRows_clerical) s

/-! ## Plugins -/

omit [Scalar K] in
theorem askHeuristic_clerical (p : HeuristicPoint K) (heur : Heuristic K σ) :
    Preserves Clerical (askHeuristic p heur) := by
  unfold askHeuristic
  refine .bind (onWorld_clerical _) fun found => ?_
  split
  · exact .pure _
  · split
    · exact .bind (.throw _) fun _ => .pure _
    · exact .pure _

theorem decide?_clerical (bound : K) (x : Array K) :
    Preserves Clerical (decide? bound x : SearchM K σ (Option (BranchingDecision K))) := by
  unfold decide?
  refine .get_bind fun s => (Preserves.bind (onWorld_clerical _) fun selected => ?_) s
  split
  · exact .pure _
  · refine .get_bind fun s => ?_
    dsimp only
    split
    · exact .pure rfl
    · exact attempt_preserves _ s

omit [Scalar K] in
theorem warmStart_clerical (node : Node K) : Preserves Clerical (warmStart sv node) := by
  refine .modify fun s => ?_
  split <;> rfl

theorem constraintCuts_clerical (p : Fractional K) :
    Preserves Clerical (Focus.constraintCuts p : SearchM K σ (List (Cut K))) := by
  refine .get_bind fun s => (Preserves.bind (.mapM fun h => ?_) fun cuts => .pure _) s
  dsimp only
  split
  · exact .pure _
  · exact onWorld_clerical _

theorem planeCuts_clerical (p : Fractional K) : Preserves Clerical (Focus.planeCuts sv p) := by
  have hseparators : ∀ gomory : List (Cut K), Preserves Clerical (do
      let cuts ← sv.plugins.separators.mapM fun sep => onWorld (sep.separate p sv.oracle)
      pure (gomory ++ cuts.flatten)) :=
    fun gomory => .bind (.mapM fun sep => onWorld_clerical _) fun cuts => .pure _
  unfold Focus.planeCuts
  refine .get_bind fun s => ?_
  dsimp only
  split
  · exact (Preserves.bind (.pure _) fun gomory => hseparators gomory) s
  · exact (Preserves.bind (attempt_preserves _) fun gomory => hseparators gomory) s

theorem scored_clerical (x : Array K) (cut : Cut K) : Preserves Clerical (Focus.scored sv x cut) := by
  unfold Focus.scored
  split
  · exact .bind (.throw _) fun _ => .pure _
  · exact .pure _

/-! ## The other parts -/

/-- A relation that allows what separation does to a search. -/
structure Separates (sv : Solver K σ) (R : Search K σ → Search K σ → Prop) : Prop where
  clerical : ∀ {s t}, s.Clerical t → R s t
  trans : ∀ {s t u}, R s t → R t u → R s u
  separateInactive : ∀ s x minEfficacy, R s { s with pool := (s.pool.separateInactive x minEfficacy).2 }
  addCut : ∀ s cut, R s { s with pool := (s.pool.add cut).2.2 }
  addRow : ∀ s name row, R s { s with handlers := { s.handlers with
    linear := (s.handlers.linear.addRow name row false).2 } }
  register : ∀ {s index node id registry}, s.registry.add (K := K) 0 index (.below node) = .ok (id, registry) →
    R s { s with registry }
  lockCons : ∀ s h locks, R s (s.lockCons h locks)

/-- A relation that allows what the rounds of a node do to a search. Columns are added only
where there are pricers. -/
structure Cycles (sv : Solver K σ) (R : Search K σ → Search K σ → Prop) : Prop extends Separates sv R where
  propagate : ∀ s, Ensures (s.propagator.run s.handlers s.registry s.implications sv.steps) (s.domains, s.world)
    (fun _ t => R s { s with domains := t.1, world := t.2 }) fun _ t => R s { s with domains := t.1, world := t.2 }
  updateActivity : ∀ s duals, R s { s with pool := (s.pool.updateActivity duals).2 }
  addVar : sv.plugins.pricers ≠ [] → ∀ {s name type lower upper obj v problem},
    s.problem.addVar name type lower upper obj = .ok (v, problem) →
    let x := problem.var v
    R s { s with problem, domains := (s.domains.addVariable x.lower x.upper x.type.isIntegral).2 }
  addCoefficient : sv.plugins.pricers ≠ [] → ∀ s h c v a,
    Ensures (Handlers.addCoefficient h c v a) (s.handlers, s.world)
      (fun _ t => R s { s with handlers := t.1, world := t.2 }) fun _ t => R s { s with handlers := t.1, world := t.2 }

/-- A relation that allows what entering a node and propagation do to a search. -/
structure Enters (sv : Solver K σ) (R : Search K σ → Search K σ → Prop) : Prop where
  clerical : ∀ {s t}, s.Clerical t → R s t
  trans : ∀ {s t u}, R s t → R t u → R s u
  restore : ∀ {s id path}, s.tree.pathTo id = .ok path →
    R s { s with domains := (s.domains.restore path s.tree.delta).2 }
  switchPath : ∀ s path, R s { s with registry := (s.registry.switchPath path).2 }
  propagate : ∀ s, Ensures (s.propagator.run s.handlers s.registry s.implications sv.steps) (s.domains, s.world)
    (fun _ t => R s { s with domains := t.1, world := t.2 }) fun _ t => R s { s with domains := t.1, world := t.2 }

/-- A relation that allows all that the operations do to a search, apart from its tree and
its incumbent, and from taking fixed variables out of their groups. -/
structure Evolves (sv : Solver K σ) (R : Search K σ → Search K σ → Prop) : Prop extends Enters sv R, Cycles sv R where
  releaseNode : ∀ s node, R s { s with registry := (s.registry.releaseNode node).2 }
  delete : ∀ s h c, R s { s with
    handlers := (s.handlers.delete s.world h c).1
    world := (s.handlers.delete s.world h c).2 }

variable {R : Search K σ → Search K σ → Prop}

namespace Enters

theorem isRefl (h : Enters sv R) : Std.Refl R := ⟨fun _ => h.clerical rfl⟩

theorem isTrans (h : Enters sv R) : IsTrans (Search K σ) R := ⟨fun _ _ _ => h.trans⟩

theorem of_clerical (h : Enters sv R) {α : Type} {m : SearchM K σ α} (hm : Preserves Clerical m) : Preserves R m :=
  hm.mono fun _ _ => h.clerical

/-- **Entering a node.** -/
theorem enterNode (h : Enters sv R) {s : Search K σ} {id : NodeId} {path : List NodeId}
    (hpath : s.tree.pathTo id = .ok path) :
    Ensures (Search.enterNode sv path) s (fun _ t => R s t) fun _ t => R s t := by
  have := h.isRefl
  have := h.isTrans
  refine .bind (.modifyGet (Preserves.after ?_ (h.restore hpath)))
  refine .bind (.modifyGet fun s => h.switchPath s path) fun delta => ?_
  refine .bind (h.of_clerical (syncRows_clerical delta)) fun _ => ?_
  exact .bind (h.of_clerical (modifyStats_clerical fun _ => rfl)) fun _ => .pure _

/-- **Propagation.** -/
theorem propagate' (h : Enters sv R) : Preserves R (Search.propagate sv) := by
  have := h.isRefl
  have := h.isTrans
  exact .get_bind fun s => .bind (.onPart ((h.propagate s).mono
    (fun out t ht => (Preserves.bind (h.of_clerical (modifyStats_clerical fun _ => rfl)) fun _ => .pure _).after ht)
    fun _ _ ht => ht))

end Enters

namespace Separates

theorem isRefl (h : Separates sv R) : Std.Refl R := ⟨fun _ => h.clerical rfl⟩

theorem isTrans (h : Separates sv R) : IsTrans (Search K σ) R := ⟨fun _ _ _ => h.trans⟩

theorem of_clerical (h : Separates sv R) {α : Type} {m : SearchM K σ α} (hm : Preserves Clerical m) : Preserves R m :=
  hm.mono fun _ _ => h.clerical

/-- **A local cut.** -/
theorem addLocalCut (h : Separates sv R) (node : NodeId) (cut : Cut K) :
    Preserves R (Search.addLocalCut sv node cut) := by
  have := h.isRefl
  have := h.isTrans
  refine .get_bind fun s => .bind (.set ?_)
  have hrow := h.addRow s cut.name cut.row
  change Ensures (attempt (s.registry.add 0 s.handlers.linear.conss.size (.below node)) >>= _) _ _ _
  cases hadd : s.registry.add (K := K) 0 s.handlers.linear.conss.size (.below node) with
  | error e => exact .bind (.throw hrow)
  | ok added =>
    obtain ⟨id, registry⟩ := added
    refine .bind (.pure (.bind (.modify ?_)))
    refine (h.of_clerical (addConsRows_clerical id)).after (h.trans hrow (h.trans ?_ (h.lockCons ..)))
    exact h.register hadd

theorem addCut' (h : Separates sv R) (node : NodeId) (depth : Nat) (out : Separated) (cut : Cut K) :
    Preserves R (Focus.addCut sv node depth out cut) := by
  have := h.isRefl
  have := h.isTrans
  unfold Focus.addCut
  split
  · exact .bind (h.addLocalCut node cut) fun _ => .pure _
  · refine .bind (.modifyGet fun s => h.addCut s cut) fun added => ?_
    dsimp only
    split
    · exact .pure _
    · exact .bind (h.of_clerical (addCutRow_clerical _)) fun _ => .pure _

/-- **The best cuts** are entered, after those that were taken up again. -/
theorem enterBest (h : Separates sv R) (f : Focus K σ) (cuts : List (Cut K)) (reactivated : List Nat) (x : Array K) :
    Preserves R (do
      let cuts ← cuts.filterMapM (Focus.scored sv x)
      let best := (cuts.mergeSort fun a b => Scalar.totalOrder a.1 b.1 != .lt).take sv.settings.cutsPerRound
      reactivated.forM (addCutRow sv)
      let out ← best.foldlM (fun out (_, cut) => Focus.addCut sv f.node f.depth out cut)
        { cuts := reactivated.length }
      modifyStats fun st => { st with cutsAdded := st.cutsAdded + out.cuts }
      pure out) := by
  have := h.isRefl
  have := h.isTrans
  refine .bind (.filterMapM fun cut => h.of_clerical (scored_clerical x cut)) fun cuts => ?_
  refine .bind (.forM fun id => h.of_clerical (addCutRow_clerical id)) fun _ => ?_
  refine .bind (.foldlM fun out c => h.addCut' _ _ out c.2) fun out => ?_
  exact .bind (h.of_clerical (modifyStats_clerical fun _ => rfl)) fun _ => .pure _

/-- **Separation** changes nothing but the search. -/
theorem ensures_separate (h : Separates sv R) (enforceOnly : Bool) (f : Focus K σ) :
    Ensures (Focus.separate sv enforceOnly) f (fun _ g => ∃ t, g = { f with search := t } ∧ R f.search t)
      fun _ g => ∃ t, g = { f with search := t } ∧ R f.search t := by
  have := h.isRefl
  have := h.isTrans
  have hsame : ∃ t, f = { f with search := t } ∧ R f.search t := ⟨f.search, rfl, refl _⟩
  unfold Focus.separate
  refine .bind (.get ?_)
  split
  · exact .pure hsame
  · refine .onPart (Ensures.mono ?_ (fun _ t ht => ⟨t, rfl, ht⟩) fun _ t ht => ⟨t, rfl, ht⟩)
    refine Preserves.bind (R := R) (h.of_clerical (constraintCuts_clerical _)) (fun enforced => ?_) f.search
    dsimp only
    split
    · exact .bind (.pure _) fun _ => h.enterBest f _ _ _
    · refine .bind (h.of_clerical (planeCuts_clerical _)) fun planes => ?_
      exact .bind (.modifyGet fun s => h.separateInactive s ..) fun ids => .bind (.pure _) fun _ => h.enterBest f _ _ _

end Separates

namespace Cycles

/-- **Propagation in the rounds.** -/
theorem propagate'' (h : Cycles sv R) : Preserves R (Search.propagate sv) := by
  have := h.isRefl
  have := h.isTrans
  exact .get_bind fun s => .bind (.onPart ((h.propagate s).mono
    (fun out t ht => (Preserves.bind (h.of_clerical (modifyStats_clerical fun _ => rfl)) fun _ => .pure _).after ht)
    fun _ _ ht => ht))

variable (hpricers : sv.plugins.pricers ≠ [])

include hpricers

/-- **The coefficient of a column.** -/
theorem enterColumn (h : Cycles sv R) (v : VarId) (entry : ConsId × K) :
    Preserves R (Search.enterColumn v entry : SearchM K σ (Option (RowKey × K))) := by
  have := h.isRefl
  have := h.isTrans
  refine .get_bind fun s => .bind (.onPart ((h.addCoefficient hpricers s ..).mono (fun _ t ht => ?_) fun _ _ ht => ht))
  exact (Preserves.bind (.modify fun s => h.lockCons s ..) fun _ => .get_bind fun s => .pure (refl s)).after ht

omit hpricers in
theorem checkEntry (h : Cycles sv R) (pricer : String) (col : PricedColumn K) (entry : ConsId × K) :
    Preserves R (Search.checkEntry pricer col entry : SearchM K σ Unit) := by
  have := h.isRefl
  have := h.isTrans
  unfold Search.checkEntry
  refine .get_bind fun s => ?_
  dsimp only
  split
  · exact .bind (.throw (refl s))
  · split
    · exact .throw (refl s)
    · exact .pure (refl s)

/-- **A priced column.** -/
theorem addPricedColumn (h : Cycles sv R) (pricer : String) (col : PricedColumn K) :
    Preserves R (Search.addPricedColumn sv pricer col) := by
  have := h.isRefl
  have := h.isTrans
  unfold Search.addPricedColumn
  refine .bind (.forM fun entry => h.checkEntry pricer col entry) fun _ => .get_bind fun s => ?_
  split
  · exact .throw (refl s)
  · next v problem hadd =>
    have hcolumn := h.addVar hpricers hadd
    refine .bind (.set ?_)
    dsimp only
    split
    · exact .bind (.throw hcolumn)
    · refine Preserves.after ?_ hcolumn
      refine .bind (.mapM fun entry => h.enterColumn hpricers v entry) fun entries => ?_
      exact .bind (h.of_clerical (onWorld_clerical _)) fun _ => h.of_clerical (modifyStats_clerical fun _ => rfl)

end Cycles

/-- **Releasing a node.** -/
theorem Evolves.releaseNode' (h : Evolves sv R) (node : NodeId) : Preserves R (Search.releaseNode sv node) := by
  have := h.toEnters.isRefl
  have := h.toEnters.isTrans
  refine .bind (.modifyGet fun s => h.releaseNode s node) fun ids => .forM fun id => ?_
  exact .bind (h.toEnters.of_clerical (removeConsRows_clerical id)) fun _ => .modify fun s => h.delete s _ _

/-! ## The rounds of a node -/

/-- What the operations of the rounds do to the search, and what they keep of the node. -/
def Rounds (R : Search K σ → Search K σ → Prop) (f g : Focus K σ) : Prop :=
  R f.search g.search ∧ g.node = f.node ∧ g.depth = f.depth ∧ g.nodeBound = f.nodeBound

namespace Cycles

omit [Scalar K] in
theorem onSearch {α : Type} {act : SearchM K σ α} (hact : Preserves R act) :
    Preserves (Rounds R) (Focus.onSearch act) :=
  .onPart fun f => (hact f.search).mono (fun _ _ ht => ⟨ht, rfl, rfl, rfl⟩) fun _ _ ht => ⟨ht, rfl, rfl, rfl⟩

variable (h : Cycles sv R)

include h

theorem rounds_refl : Std.Refl (Rounds R) := ⟨fun _ => ⟨h.clerical rfl, rfl, rfl, rfl⟩⟩

theorem rounds_trans : IsTrans (Focus K σ) (Rounds R) := ⟨fun _ _ _ hfg hgh =>
  ⟨h.trans hfg.1 hgh.1, hgh.2.1.trans hfg.2.1, hgh.2.2.1.trans hfg.2.2.1, hgh.2.2.2.trans hfg.2.2.2⟩⟩

theorem solveOnce : Preserves (Rounds R) (Focus.solveOnce sv) :=
  onSearch (h.of_clerical (.bind (onWorld_clerical _) fun _ =>
    .bind (modifyStats_clerical fun _ => rfl) fun _ => .pure _))

/-- **A solve.** -/
theorem solve : Preserves (Rounds R) (Focus.solve sv) := by
  have := h.isTrans
  have := h.rounds_refl
  have := h.rounds_trans
  have hagain : Preserves (Rounds R) (Focus.solveReliably sv) := by
    unfold Focus.solveReliably
    refine .bind h.solveOnce fun lp => ?_
    split
    · refine .bind (onSearch (h.of_clerical ?_)) fun _ => h.solveOnce
      exact .bind (.modify fun _ => rfl) fun _ => modifyStats_clerical fun _ => rfl
    · exact .pure _
  have hages : ∀ lp : Relaxation K, Preserves (Rounds R) (Focus.ageCuts lp : FocusM K σ Unit) := fun lp =>
    onSearch (.bind (.modifyGet fun s => h.updateActivity s _) fun _ => h.of_clerical (retireCutRows_clerical _))
  have hlearns : ∀ lp : Relaxation K, Preserves (Rounds R) (Focus.learnGain lp : FocusM K σ Unit) := fun lp => by
    refine .modify fun f => ?_
    split
    · exact refl f
    · exact ⟨h.clerical rfl, rfl, rfl, rfl⟩
  have hsame : ∀ {g : Focus K σ → Focus K σ}, (∀ f, (g f).search = f.search ∧ (g f).node = f.node ∧
      (g f).depth = f.depth ∧ (g f).nodeBound = f.nodeBound) →
      Preserves (Rounds R) (modify g : FocusM K σ Unit) := fun hg => .modify fun f => by
    obtain ⟨hsearch, hrest⟩ := hg f
    exact ⟨hsearch ▸ h.clerical rfl, hrest⟩
  unfold Focus.solve
  refine .bind (onSearch (h.of_clerical ?_)) fun _ => .bind hagain fun lp => ?_
  · exact .bind flushStaleRows_clerical fun _ => .get_bind fun s => onWorld_clerical _ s
  · dsimp only
    split
    · exact .bind (hages lp) fun _ => .bind (hlearns lp) fun _ => .bind (hsame fun _ => ⟨rfl, rfl, rfl, rfl⟩)
        fun _ => .bind (hsame fun _ => ⟨rfl, rfl, rfl, rfl⟩) fun _ => .pure _
    · exact .bind (hsame fun _ => ⟨rfl, rfl, rfl, rfl⟩) fun _ => .pure _

/-- **Pricing.** -/
theorem price : Preserves (Rounds R) (Focus.price sv) := by
  have := h.rounds_refl
  have := h.rounds_trans
  have hask : ∀ (p : PricingPoint K) (pricer : Pricer K σ), Preserves (Rounds R) (Focus.askPricer p pricer) := by
    intro p pricer
    unfold Focus.askPricer
    refine .bind (onSearch (h.of_clerical (onWorld_clerical _))) fun found => ?_
    split
    · exact .pure _
    · next bound _ =>
      dsimp only
      have hraise : Preserves (Rounds R) (do
          modify fun (f : Focus K σ) => { f with pricerBound := Scalar.max f.pricerBound bound }
          pure (found.columns.map fun c => (pricer.name, c)) : FocusM K σ (List (String × PricedColumn K))) :=
        .bind (.modify fun f => ⟨h.clerical rfl, rfl, rfl, rfl⟩) fun _ => .pure _
      split
      · exact .bind (.throw _) fun _ => hraise
      · exact hraise
  unfold Focus.price
  refine .get_bind fun f => ?_
  split
  · exact .pure (refl f)
  · by_cases hpricers : sv.plugins.pricers = []
    · rw [hpricers]
      exact .pure (refl f)
    · refine (Preserves.bind (.mapM fun pricer => hask _ pricer) fun columns => ?_) f
      exact .bind (.forM fun c => onSearch (h.addPricedColumn hpricers c.1 c.2)) fun _ => .pure _

theorem isFeasible : Preserves (Rounds R) (Focus.isFeasible sv) := by
  have := h.rounds_refl
  unfold Focus.isFeasible
  refine .get_bind fun f => ?_
  split <;> exact .pure (refl f)

/-- **Separation.** -/
theorem separate (enforceOnly : Bool) : Preserves (Rounds R) (Focus.separate sv enforceOnly) := fun f =>
  (h.ensures_separate enforceOnly f).mono (fun _ _ ⟨_, heq, ht⟩ => heq ▸ ⟨ht, rfl, rfl, rfl⟩)
    fun _ _ ⟨_, heq, ht⟩ => heq ▸ ⟨ht, rfl, rfl, rfl⟩

omit h in
/-- What the rounds ensure of a node, the search finds where they end. -/
theorem ensures_runRounds {Ready Solved : Focus K σ → Prop} {Ended : RoundOutcome → Focus K σ → Prop}
    {fail : Error K → Focus K σ → Prop} (hcontract : (Focus.driver sv).Contract Ready Solved Ended fail)
    {node : Node K} {depth : Nat} {s : Search K σ} (hs : ∀ f : Focus K σ, f.search = s → f.node = node.id →
      f.depth = depth → f.nodeBound = node.dualBound → f.pricerBound = Scalar.negInf → Ready f) :
    Ensures (Search.runRounds sv node depth) s (fun r t => ∃ f, f.search = t ∧ f.lp = r.2.2 ∧ Ended r.1 f ∧
      r.2.1 = if r.1 = .feasible ∨ r.1 = .fractional ∨ r.1 = .boundExceeded then f.bound
        else Scalar.max node.dualBound f.pricerBound) fun e t => ∃ f, f.search = t ∧ fail e f := by
  have hrun := hcontract.run {
      maxRounds := if depth = 0 then sv.settings.maxCutRoundsRoot else sv.settings.maxCutRoundsPerNode
      maxPricingRounds := sv.settings.maxPricingRounds
      pricing := sv.settings.pricingEnabled && !sv.plugins.pricers.isEmpty } {} sv.steps (s := {
      search := s
      node := node.id
      depth
      nodeBound := node.dualBound
      pricerBound := Scalar.negInf
      origin := node.origin }) (hs _ rfl rfl rfl rfl rfl)
  unfold Ensures at hrun
  unfold Ensures Search.runRounds
  dsimp only
  split at hrun
  · next heq =>
    rw [heq]
    exact ⟨_, rfl, rfl, hrun, rfl⟩
  · next heq =>
    rw [heq]
    exact ⟨_, rfl, hrun⟩

/-- The operations of the rounds, from where they start. -/
theorem contract (f : Focus K σ) : (Focus.driver sv).Contract (Rounds R f) (Rounds R f) (fun _ => Rounds R f)
    fun _ => Rounds R f := by
  have := h.rounds_refl
  have := h.rounds_trans
  have hstep : ∀ {α : Type} {m : FocusM K σ α} {post : α → Focus K σ → Prop}, Preserves (Rounds R) m →
      (∀ a g, Rounds R f g → post a g) → ∀ {g}, Rounds R f g → Ensures m g post fun _ g => Rounds R f g :=
    fun hm hpost g hg => (hm.after hg).mono (fun a g' hg' => hpost a g' hg') fun _ _ => id
  exact {
    ready := id
    solved := id
    solve := hstep h.solve fun status g hg => by split <;> exact hg
    price := hstep h.price fun added g hg => by
      split
      · exact hg
      · exact ⟨hg, hg⟩
    exceeded := fun hg _ => hg
    feasible := hstep h.isFeasible fun is g hg => by split <;> exact hg
    separate := fun hg enforceOnly => hstep (h.separate enforceOnly) (fun sep g hg => by split <;> exact hg) hg
    propagate := hstep (onSearch h.propagate'') fun alive g hg => by split <;> exact hg }

/-- **The rounds of a node.** -/
theorem runRounds (node : Node K) (depth : Nat) : Preserves R (Search.runRounds sv node depth) := by
  intro s
  let start : Focus K σ := {
    search := s
    node := node.id
    depth
    nodeBound := node.dualBound
    pricerBound := Scalar.negInf
    origin := none }
  have hstart : ∀ f : Focus K σ, f.search = s → f.node = node.id → f.depth = depth → f.nodeBound = node.dualBound →
      f.pricerBound = Scalar.negInf → Rounds R start f := fun f hsearch hnode hdepth hbound _ => ⟨hsearch ▸ h.clerical rfl, hnode, hdepth, hbound⟩
  refine (ensures_runRounds (h.contract _) hstart).mono ?_ ?_
  · rintro r t ⟨f, rfl, -, hf, -⟩
    exact hf.1
  · rintro e t ⟨f, rfl, hf⟩
    exact hf.1

end Cycles

end Search

end BranchAndCut

import BranchAndCut.Proofs.Solve.Splitting
import BranchAndCut.Proofs.Retention.Rounds
import BranchAndCut.Proofs.Solve.Processing
import BranchAndCut.Proofs.Tree.Paths

/-! # A point while a node is processed

What the rounds found is recorded at a node. It is closed only where it does not cover the
point or the point does not improve, and when it is split one of its children covers the
point. So after the node was processed some node still covers the point while it improves. -/

namespace BranchAndCut

namespace SearchTree

section

variable {K : Type} [Scalar K] {t u : SearchTree K} {n : NodeId} {node : Node K} {path : List NodeId} {out : NodeId → Prop}

/-- The path to a node stays while nodes keep their parents. -/
theorem Leads.kept (h : t.Leads path n) (hparents : ∀ {n node}, u.node? n = some node →
    ∃ old, t.node? n = some old ∧ node.parent = old.parent) (hu : u.Wf out) (hn : u.node? n = some node) :
    u.Leads path n := by
  obtain ⟨path', -, hpath, -⟩ := pathTo_leads hu hn
  obtain rfl := h.unique (hpath.of_parents hparents)
  exact hpath

end

/-- Closing nodes makes no node cover a point. -/
theorem Closes.covers_back [Rooted ℚ] {t u : SearchTree (Exact ℚ)} {gone out : NodeId → Prop} {p : Point} {q : Exact ℚ}
    {n : NodeId} {x : Node (Exact ℚ)} (hc : Closes t u gone) (ht : t.Wf out) (h : u.Covers p q n x) :
    ∃ old, t.Covers p q n old := by
  obtain ⟨old, hold, -, -, hbound, hstatus⟩ := hc.nodes h.mem
  refine ⟨old, hold, ?_, hbound ▸ h.bound, h.follows.back hc.grows ht (ht.fresh hold)⟩
  rcases hstatus with hsame | ⟨-, hclosed⟩
  · exact hsame ▸ h.waits
  · rw [h.waits] at hclosed
    cases hclosed

end SearchTree

namespace Search

variable [Rooted ℚ] {σ : Type} {sv : Solver (Exact ℚ) σ} {m : Model (Exact ℚ) σ} {x : Point} {id : NodeId}
  {s t : Search (Exact ℚ) σ} {node : Node (Exact ℚ)} {o : RoundOutcome} {b : Exact ℚ} {lp : Option (Relaxation (Exact ℚ))}

/-- The node covers the point. -/
def CoveredAt (x : Point) (id : NodeId) (s : Search (Exact ℚ) σ) : Prop :=
  ∃ node, s.tree.Covers x (s.valueAt x) id node

/-- The node is not needed: the point does not improve, or it is no point of the node. -/
def Spent (x : Point) (id : NodeId) (s : Search (Exact ℚ) σ) : Prop :=
  s.incumbent.Improves (s.valueAt x) → ¬ CoveredAt x id s

/-- What is known once the rounds at a node have ended. -/
structure Learned (x : Point) (id : NodeId) (o : RoundOutcome) (b : Exact ℚ) (lp : Option (Relaxation (Exact ℚ)))
    (s : Search (Exact ℚ) σ) : Prop where
  bound : CoveredAt x id s → b ≤ s.valueAt x
  solution : o = .feasible ∨ o = .fractional → ∀ r ∈ lp, ∃ y : Point, r.x = y.vector ∧
    (CoveredAt x id s → s.valueAt y ≤ s.valueAt x)
  spent : o.Refutes → Spent x id s

theorem Learned.transfer (h : Learned x id o b lp s) (hproblem : t.problem = s.problem)
    (hcovered : CoveredAt x id t → CoveredAt x id s)
    (himproves : t.incumbent.Improves (t.valueAt x) → s.incumbent.Improves (s.valueAt x)) : Learned x id o b lp t := by
  have hvalue : ∀ y, t.valueAt y = s.valueAt y := fun y => congrArg (Problem.value · y.vector) hproblem
  refine ⟨fun ht => hvalue x ▸ h.bound (hcovered ht), fun ho r hr => ?_, fun ho hq ht => h.spent ho (himproves hq) (hcovered ht)⟩
  obtain ⟨y, hy, hle⟩ := h.solution ho r hr
  refine ⟨y, hy, fun ht => ?_⟩
  rw [hvalue, hvalue]
  exact hle (hcovered ht)

/-- A bound that reaches the cutoff spends the node. -/
theorem Learned.prunable (h : Learned x id o b lp s) (hprunable : s.incumbent.isPrunable b = true) : Spent x id s := by
  intro hq hcovered
  rw [hq.not_prunable (h.bound hcovered)] at hprunable
  cases hprunable

/-! ## The search at a node -/

section

variable (H : Honest sv m) (hpricers : sv.plugins.pricers = []) (hx : m.Feasible x)

/-- **The search at a node,** with a point that it retains. -/
structure Attends (id : NodeId) (s : Search (Exact ℚ) σ) : Prop where
  synced : s.Synced (H.footing hpricers hx True)
  retains : s.Retains x (m.value x) (· = id)
  busy : s.Busy id
  leads : s.tree.Leads s.domains.path id
  path : s.registry.path.map Prod.fst = s.domains.path.reverse

variable {H hpricers hx}

theorem Attends.clerical (h : Attends H hpricers hx id s) (hsynced : t.Synced (H.footing hpricers hx True))
    (ht : s.Clerical t) : Attends H hpricers hx id t := by
  have hdomains : t.domains = s.domains := ht.part Search.domains fun _ _ _ _ _ => rfl
  have htree : t.tree = s.tree := ht.part Search.tree fun _ _ _ _ _ => rfl
  have hregistry : t.registry = s.registry := ht.part Search.registry fun _ _ _ _ _ => rfl
  refine ⟨hsynced, h.retains.clerical ht, h.busy.steady ht.steady, ?_, ?_⟩
  · rw [hdomains, htree]
    exact h.leads
  · rw [hdomains, hregistry]
    exact h.path

theorem coveredAt_clerical (ht : s.Clerical t) : CoveredAt x id t ↔ CoveredAt x id s := by
  have hproblem : t.problem = s.problem := ht.part Search.problem fun _ _ _ _ _ => rfl
  have htree : t.tree = s.tree := ht.part Search.tree fun _ _ _ _ _ => rfl
  unfold CoveredAt valueAt
  rw [hproblem, htree]

theorem Learned.clerical (h : Learned x id o b lp s) (ht : s.Clerical t) : Learned x id o b lp t := by
  have hproblem : t.problem = s.problem := ht.part Search.problem fun _ _ _ _ _ => rfl
  have hincumbent : t.incumbent = s.incumbent := ht.part Search.incumbent fun _ _ _ _ _ => rfl
  refine h.transfer hproblem (coveredAt_clerical ht).mp fun hq => ?_
  unfold valueAt at hq ⊢
  rwa [hproblem, hincumbent] at hq

/-- Tree and incumbent change, but nodes keep their parents. -/
theorem Attends.withTree (h : Attends H hpricers hx id s) {tree : SearchTree (Exact ℚ)} {incumbent : Incumbent (Exact ℚ)}
    (hretains : Retains x (m.value x) (· = id) { s with tree, incumbent }) (hbusy : Busy { s with tree, incumbent } id)
    (hparents : ∀ {n node}, tree.node? n = some node → ∃ old, s.tree.node? n = some old ∧ node.parent = old.parent) :
    Attends H hpricers hx id { s with tree, incumbent } := by
  obtain ⟨node, hn, -⟩ := hbusy.solving
  exact ⟨h.synced.transfer rfl rfl rfl rfl rfl rfl rfl rfl fun _ _ hn => hbusy.tree.id hn, hretains, hbusy,
    h.leads.kept hparents hbusy.tree hn, h.path⟩

theorem Attends.here (h : Attends H hpricers hx id s) (hfollows : s.tree.Follows x id) : s.Here x :=
  here_of_follows rfl h.leads hfollows

/-! ## What the rounds find -/

/-- Where the rounds end at a solution of the relaxation, its value is a bound. -/
theorem bounds_of_tells {tree : SearchTree (Exact ℚ)} {f : Focus (Exact ℚ) σ} (h : Focus.Tells x tree id o f)
    (ho : o = .feasible ∨ o = .fractional ∨ o = .boundExceeded) : Focus.Bounds x tree id f := by
  rcases ho with rfl | rfl | rfl
  · exact h
  · exact h
  · exact h.1

/-- **What the rounds tell** is learned. -/
theorem learned_of_tells {tree : SearchTree (Exact ℚ)} {bound : Exact ℚ} {f : Focus (Exact ℚ) σ}
    (h : Focus.Inspects H hpricers hx tree id bound f) (htells : Focus.Tells x tree id o f)
    (hn : tree.node? id = some node) (hbound : node.dualBound = bound)
    (hb : b = if o = .feasible ∨ o = .fractional ∨ o = .boundExceeded then f.bound
      else Scalar.max bound f.pricerBound) : Learned x id o b f.lp f.search := by
  have hcovered : CoveredAt x id f.search → tree.Follows x id ∧ bound ≤ f.search.valueAt x := by
    rintro ⟨node', hcovers⟩
    rw [h.sameTree] at hcovers
    obtain rfl := Option.some.inj (hn.symm.trans hcovers.mem)
    exact ⟨hcovers.follows, hbound ▸ hcovers.bound⟩
  have hle : CoveredAt x id f.search → b ≤ f.search.valueAt x := by
    intro hc
    obtain ⟨hfollows, hle⟩ := hcovered hc
    rw [hb]
    split
    · next ho => exact h.bound_le (bounds_of_tells htells ho) hfollows hle
    · rw [h.pricerBound]
      exact Exact.max_le' hle (Scalar.Ordered.negInf_le (Scalar.Ordered.defined_of_le hle).2)
  refine ⟨hle, fun ho r hr => ?_, fun hrefutes hq hc => ?_⟩
  · obtain ⟨lp, y, hlp, -, hsolution, -, hvalue⟩ := bounds_of_tells htells (ho.imp_right .inl)
    obtain rfl := Option.some.inj (hlp.symm.trans hr)
    exact ⟨y, hsolution, fun hc => hvalue (hcovered hc).1⟩
  · cases o with
    | infeasible => exact htells (hcovered hc).1
    | cutoff => exact htells (hcovered hc).1
    | boundExceeded =>
      rw [if_pos (.inr (.inr rfl))] at hb
      have hprunable := htells.2
      rw [← hb, hq.not_prunable (hle hc)] at hprunable
      cases hprunable
    | _ => exact hrefutes

/-- **The rounds** of a node. -/
theorem Attends.runRounds (h : Attends H hpricers hx id s) (hn : s.tree.node? id = some node) {depth : Nat}
    (hdepth : depth = s.domains.path.length - 1) : Ensures (runRounds sv node depth) s
      (fun r t => Attends H hpricers hx id t ∧ Learned x id r.1 r.2.1 r.2.2 t) fun _ _ => True := by
  refine (Cycles.ensures_runRounds (Focus.contract_inspects H hpricers hx id s.tree node.dualBound) ?_).mono ?_
    fun _ _ _ => trivial
  · rintro f rfl hnode hfdepth hbound hpricer
    have hid : f.node = id := hnode.trans (h.busy.tree.id hn)
    refine ⟨⟨H.synced_footing hpricers hx h.synced, ?_⟩, h.retains, h.busy, rfl, h.leads, h.path, hid,
      hfdepth.trans hdepth, hbound, hpricer⟩
    rw [hid, h.path, List.mem_reverse]
    exact h.leads.mem
  · rintro ⟨o, b, lp⟩ _ ⟨f, rfl, rfl, ⟨hf, htells⟩, hb⟩
    refine ⟨⟨H.synced_footing hpricers hx hf.focused.synced, hf.retains, hf.busy, ?_, hf.path⟩,
      learned_of_tells hf htells hn rfl hb⟩
    rw [hf.sameTree]
    exact hf.leads

/-! ## What becomes of the node -/

/-- **The node is updated.** It may get changes that its points satisfy, and a bound that the
point allows if the node covers it. -/
theorem Attends.setNode (h : Attends H hpricers hx id s) (hn : s.tree.node? id = some node) {new : Node (Exact ℚ)}
    (hid : new.id = id) (hparent : new.parent = node.parent) (hstatus : new.status = node.status)
    (hgrows : ∀ c ∈ node.changes, c ∈ new.changes)
    (hchanges : s.tree.Follows x id → ∀ c ∈ new.changes, c.Admits x)
    (hbound : CoveredAt x id s → new.dualBound ≤ s.valueAt x) (hbusy : Busy { s with tree := s.tree.setNode new } id) :
    Attends H hpricers hx id { s with tree := s.tree.setNode new } := by
  have hnew : (s.tree.setNode new).node? id = some new := by
    rw [SearchTree.node?_setNode, if_pos hid]
  have hanchored : (s.tree.setNode new).Anchored x := SearchTree.setNode_anchored hid hparent h.retains.anchored
    fun hnone => hchanges (h.retains.anchored.follows hn hnone)
  refine h.withTree ?_ hbusy fun {n y} hy => ?_
  · refine h.retains.withTree h.busy.tree (SearchTree.setNode_grows hn hid hparent hgrows) hanchored fun hq => ?_
    obtain ⟨n, y, hcovers, hsolving⟩ := h.retains.covered hq
    by_cases hne : n = id
    · subst hne
      obtain rfl := Option.some.inj (hn.symm.trans hcovers.mem)
      exact ⟨n, new, ⟨hnew, hstatus ▸ hcovers.waits, hbound ⟨node, hcovers⟩,
        SearchTree.setNode_follows hn hid hparent hbusy.tree hchanges hcovers.follows⟩, fun _ => rfl⟩
    · exact ⟨n, y, SearchTree.setNode_covers hn hid hparent hbusy.tree hchanges hcovers hne, hsolving⟩
  · rw [SearchTree.node?_setNode] at hy
    split at hy
    · next heq =>
      cases hy
      exact ⟨node, (heq.symm.trans hid) ▸ hn, hparent⟩
    · exact ⟨y, hy, rfl⟩

/-- A node covers no more than before it was updated. -/
theorem coveredAt_of_setNode (hwf : s.tree.Wf fun _ => False) (hn : s.tree.node? id = some node) {new : Node (Exact ℚ)}
    (hid : new.id = id) (hparent : new.parent = node.parent) (hstatus : new.status = node.status)
    (hgrows : ∀ c ∈ node.changes, c ∈ new.changes)
    (hbound : ∀ q, new.dualBound ≤ q → node.dualBound ≤ q)
    (h : CoveredAt x id { s with tree := s.tree.setNode new }) : CoveredAt x id s := by
  obtain ⟨y, hmem, hwaits, hle, hfollows⟩ := h
  dsimp only at hmem hfollows
  rw [SearchTree.node?_setNode, if_pos hid] at hmem
  cases hmem
  exact ⟨node, hn, hstatus ▸ hwaits, hbound _ hle,
    hfollows.back (SearchTree.setNode_grows hn hid hparent hgrows) hwf (hwf.fresh hn)⟩

/-- **The bound** that the rounds found is recorded. -/
theorem Attends.raiseBound (h : Attends H hpricers hx id s) (hlearned : Learned x id o b lp s) :
    Attends H hpricers hx id { s with tree := s.tree.modifyNode id (·.raiseBound b) } ∧
      Learned x id o b lp { s with tree := s.tree.modifyNode id (·.raiseBound b) } := by
  obtain ⟨node, hn, hsolving⟩ := h.busy.solving
  obtain ⟨hid, hparent, -, hstatus, -, hchanges⟩ := node.raiseBound_place b
  have hid := hid.trans (h.busy.tree.id hn)
  have hbusy := h.busy.raiseBound b
  rw [SearchTree.modifyNode_eq hn] at hbusy ⊢
  have hgrows : ∀ c ∈ node.changes, c ∈ (node.raiseBound b).changes := fun c hc => hchanges.symm ▸ hc
  refine ⟨h.setNode hn hid hparent hstatus hgrows (fun hfollows => hchanges ▸ hfollows.changes hn) (fun hc => ?_) hbusy,
    hlearned.transfer rfl (coveredAt_of_setNode h.busy.tree hn hid hparent hstatus hgrows fun q hq => ?_) fun hq => hq⟩
  · have hle := hlearned.bound hc
    obtain ⟨node', hcovers⟩ := hc
    obtain rfl := Option.some.inj (hn.symm.trans hcovers.mem)
    unfold Node.raiseBound
    split
    · exact hle
    · exact hcovers.bound
  · unfold Node.raiseBound at hq
    split at hq
    · next hlt => exact Scalar.Ordered.le_trans (Scalar.Ordered.le_of_lt hlt) hq
    · exact hq

/-- **What propagation found** is recorded. -/
theorem Attends.recordChanges (h : Attends H hpricers hx id s) (hlearned : Learned x id o b lp s)
    {changes : List (BoundChange (Exact ℚ))} (hchanges : s.tree.Follows x id → ∀ c ∈ changes, c.Admits x) :
    Ensures (onTree (SearchTree.recordChanges id changes)) s
      (fun _ t => Attends H hpricers hx id t ∧ Learned x id o b lp t) fun _ _ => True := by
  obtain ⟨node, hn, hsolving⟩ := h.busy.solving
  obtain ⟨hret, -⟩ := SearchTree.recordChanges_spec h.busy.tree hn hsolving changes
  have hreturns : Returns (onTree (SearchTree.recordChanges id changes)) s ⟨⟩
      { s with tree := s.tree.setNode { node with changes := node.changes ++ changes } } := Returns.onPart_intro hret
  have hgrows : ∀ c ∈ node.changes, c ∈ node.changes ++ changes := fun c hc => List.mem_append_left _ hc
  have hid : node.id = id := h.busy.tree.id hn
  refine .of_returns hreturns ⟨h.setNode hn hid rfl rfl hgrows (fun hfollows c hc => ?_) ?_
      ((h.busy.recordChanges changes).returns hreturns),
    hlearned.transfer rfl (coveredAt_of_setNode h.busy.tree hn hid rfl rfl hgrows fun _ hq => hq) fun hq => hq⟩
  · exact (List.mem_append.mp hc).elim (hfollows.changes hn c) (hchanges hfollows c)
  · rintro ⟨node', hcovers⟩
    obtain rfl := Option.some.inj (hn.symm.trans hcovers.mem)
    exact hcovers.bound

/-- Bound and changes are recorded. -/
theorem Attends.record (h : Attends H hpricers hx id s) (hlearned : Learned x id o b lp s) (replayed : Nat) :
    Ensures (onTree (SearchTree.recordChanges id (s.domains.focusDelta.drop replayed)))
      { s with tree := s.tree.modifyNode id (·.raiseBound b) }
      (fun _ t => Attends H hpricers hx id t ∧ Learned x id o b lp t) fun _ _ => True := by
  obtain ⟨hattends, hlearned⟩ := h.raiseBound hlearned
  refine hattends.recordChanges hlearned fun hfollows c hc => ?_
  exact hattends.retains.store.top.changes (hattends.here hfollows) c (List.mem_of_mem_drop hc)

/-! ## Solutions -/

/-- Offering a solution prunes what it dominates. -/
theorem Busy.report_closes (h : s.Busy id) (y : Array (Exact ℚ)) : Ensures (Search.report y) s
    (fun _ t => ∃ tree incumbent, t = { s with tree, incumbent } ∧
      incumbent = (s.incumbent.offer y (s.problem.value y)).2 ∧
      SearchTree.Closes s.tree tree (s.tree.Dominated incumbent.isPrunable)) fun _ _ => True := by
  unfold Search.report
  refine .bind (.get ?_)
  split
  · next incumbent hoffer =>
    have hsame : (s.incumbent.offer y (s.problem.value y)).2 = s.incumbent := by
      unfold Incumbent.offer at hoffer ⊢
      split
      · rfl
      · next hnot =>
        rw [if_neg hnot] at hoffer
        cases hoffer
    exact .pure ⟨s.tree, s.incumbent, rfl, hsame.symm, (SearchTree.Closes.refl _).mono fun _ => False.elim⟩
  · next incumbent hoffer =>
    have hqueue : Queue.Wf { s.tree.queue with hasIncumbent := true } :=
      ⟨h.tree.queue.byBound, h.tree.queue.byDepth, h.tree.queue.byEstimate⟩
    have hwf : (s.tree.setHasIncumbent true).Wf fun _ => False :=
      h.tree.withQueue hqueue (fun hm => hm) (fun he _ => he) fun _ hout => hout
    obtain ⟨count, v, hret, -, hcloses⟩ := SearchTree.pruneDominated_spec hwf incumbent.isPrunable
    have hset : SearchTree.Closes s.tree (s.tree.setHasIncumbent true) fun _ => False := .of_eq rfl rfl rfl rfl
    refine .bind (.set (.bind (.onPart (.of_returns hret (.pure ⟨v, incumbent, rfl, ?_, ?_⟩)))))
    · rw [hoffer]
    · exact (hset.trans hcloses).mono fun n hn => hn.elim False.elim fun hn => hn

/-- A solution that is offered makes no more points improve. -/
theorem Busy.improves_of_offer (h : s.Busy id) {y : Array (Exact ℚ)} {obj q : Exact ℚ}
    (hq : (s.incumbent.offer y obj).2.Improves q) : s.incumbent.Improves q := by
  have hdefined := (Scalar.Ordered.defined_of_le h.incumbent.ordered).2
  cases hoffer : s.incumbent.offer y obj with
  | mk accepted incumbent =>
    rw [hoffer] at hq
    cases accepted with
    | true => exact hq.of_offer h.incumbent.absTol (fun hnan => by rw [hnan] at hdefined; cases hdefined) hoffer
    | false =>
      unfold Incumbent.offer at hoffer
      split at hoffer
      · cases hoffer
        exact hq
      · cases hoffer

/-- **Offering a solution** retains the point. -/
theorem Attends.report (h : Attends H hpricers hx id s) (y : Array (Exact ℚ)) : Ensures (report y) s
    (fun _ t => Attends H hpricers hx id t ∧ t.problem = s.problem ∧ (CoveredAt x id t → CoveredAt x id s) ∧
      t.incumbent = (s.incumbent.offer y (s.problem.value y)).2) fun _ _ => True := by
  refine ((h.busy.report y).and (h.busy.report_closes y)).mono ?_ fun _ _ _ => trivial
  rintro _ _ ⟨hbusy, tree, incumbent, rfl, hoffer, hcloses⟩
  refine ⟨h.withTree ?_ hbusy fun hn => ?_, rfl, ?_, hoffer⟩
  · refine h.retains.closes h.busy.tree hbusy.tree hcloses (fun hq => h.busy.improves_of_offer (hoffer ▸ hq)) ?_
    exact fun hq n node hcovers => hcovers.not_dominated fun b hb => hq.not_prunable hb
  · obtain ⟨old, hold, hparent, -⟩ := hcloses.nodes hn
    exact ⟨old, hold, hparent⟩
  · rintro ⟨node, hcovers⟩
    exact hcloses.covers_back h.busy.tree hcovers

/-- **The solution of the relaxation,** if it is offered, spends the node. -/
theorem Attends.solved {r : Relaxation (Exact ℚ)} (h : Attends H hpricers hx id s)
    (hlearned : Learned x id .feasible b (some r) s) : Ensures (Search.report r.x) s
      (fun _ t => Attends H hpricers hx id t ∧ Spent x id t) fun _ _ => True := by
  refine (h.report r.x).mono ?_ fun _ _ _ => trivial
  rintro _ t ⟨ht, hproblem, hcovered, hincumbent⟩
  refine ⟨ht, fun hq hc => ?_⟩
  obtain ⟨y, hy, hle⟩ := hlearned.solution (.inl rfl) r rfl
  obtain ⟨a, ha⟩ := h.retains.exists_value y
  have hvalue : t.valueAt x = s.valueAt x := congrArg (Problem.value · x.vector) hproblem
  have hle := hle (hcovered hc)
  rw [hincumbent, hvalue, hy] at hq
  rw [ha] at hle
  change (s.incumbent.offer y.vector (s.valueAt y)).2.Improves _ at hq
  rw [ha] at hq
  exact Incumbent.not_improves_offer h.busy.incumbent.absTol hle hq

/-! ## Leaving the node -/

/-- No node is being processed, and the point is retained. -/
structure Rests (H : Honest sv m) (hpricers : sv.plugins.pricers = []) (hx : m.Feasible x) (s : Search (Exact ℚ) σ) :
    Prop where
  synced : s.Synced (H.footing hpricers hx True)
  underway : s.Underway
  retains : s.Retains x (m.value x) fun _ => False

/-- The node is left with another tree. -/
theorem Attends.leaves (h : Attends H hpricers hx id s) {tree : SearchTree (Exact ℚ)} {stats : Stats}
    (hunderway : Underway { s with tree, stats }) (hgrows : SearchTree.Grows s.tree tree) (hanchored : tree.Anchored x)
    (hcovered : s.incumbent.Improves (s.valueAt x) → Covered x (s.valueAt x) (fun _ => False) tree) :
    Rests H hpricers hx { s with tree, stats } := by
  have hretains : Retains x (m.value x) (fun _ => False) { s with tree } := h.retains.withTree h.busy.tree hgrows hanchored hcovered
  exact ⟨h.synced.transfer rfl rfl rfl rfl rfl rfl rfl rfl fun _ _ hn => hunderway.tree.id hn, hunderway,
    hretains.congr rfl rfl rfl rfl rfl rfl rfl rfl⟩

/-- **Closing** a node that is spent. -/
theorem Attends.closeNode (h : Attends H hpricers hx id s) (hspent : Spent x id s) (reason : PruneReason) :
    Ensures (closeNode id reason) s (fun _ t => Rests H hpricers hx t) fun _ _ => True := by
  have hrests : Ensures (Search.closeNode id reason) s (fun _ t => t.Underway → Rests H hpricers hx t) fun _ _ => True := ?_
  · exact ((h.busy.closeNode reason).and hrests).mono (fun _ _ ht => ht.2 ht.1) fun _ _ _ => trivial
  refine .bind (.modify ?_)
  obtain ⟨node, hn, hsolving⟩ := h.busy.solving
  obtain ⟨v, hret, hv, hcloses, -⟩ := SearchTree.close_spec h.busy.tree hn (.inr hsolving) h.busy.not_queued reason
  refine .bind (.onPart (.of_returns hret (.pure fun hunderway => h.leaves hunderway hcloses.grows
    (hcloses.anchored h.retains.anchored) fun hq => ?_)))
  obtain ⟨n, y, hcovers, hbusy⟩ := h.retains.covered hq
  have hne : n ≠ id := by
    rintro rfl
    exact hspent hq ⟨y, hcovers⟩
  obtain ⟨y', hcovers', hstatus⟩ := hcloses.covers hv hcovers hne
  exact ⟨n, y', hcovers', fun hsolving => hne (hbusy (hstatus ▸ hsolving))⟩

/-- **Keeping** a node that can be neither solved nor split. -/
theorem Attends.keepUnresolved (h : Attends H hpricers hx id s) :
    Ensures (keepUnresolved id) s (fun _ t => Rests H hpricers hx t) fun _ _ => True := by
  have hrests : Ensures (Search.keepUnresolved id) s (fun _ t => t.Underway → Rests H hpricers hx t) fun _ _ => True := ?_
  · exact (h.busy.keepUnresolved.and hrests).mono (fun _ _ ht => ht.2 ht.1) fun _ _ _ => trivial
  obtain ⟨node, hn, hsolving⟩ := h.busy.solving
  obtain ⟨hret, hwf⟩ := SearchTree.markUnresolved_spec h.busy.tree hn hsolving
  have hid : node.id = id := h.busy.tree.id hn
  generalize hmarked : ({ node with status := .unresolved } : Node (Exact ℚ)) = marked at hret hwf
  have hplace : marked.id = id ∧ marked.parent = node.parent ∧ marked.changes = node.changes ∧
      marked.dualBound = node.dualBound ∧ marked.status = .unresolved := by
    rw [← hmarked]
    exact ⟨hid, rfl, rfl, rfl, rfl⟩
  obtain ⟨hid, hparent, hchanges, hbound, hstatus⟩ := hplace
  have hgrows := SearchTree.setNode_grows hn hid hparent fun c hc => hchanges.symm ▸ hc
  refine .bind (.onPart (.of_returns hret (.pure fun hunderway => h.leaves hunderway ⟨hgrows.nextId, hgrows.nodes⟩
    (SearchTree.setNode_anchored hid hparent h.retains.anchored fun hnone =>
      hchanges ▸ h.retains.anchored id node hn hnone) fun hq => ?_)))
  obtain ⟨n, y, hcovers, hbusy⟩ := h.retains.covered hq
  have hfollows : ∀ {z}, (s.tree.setNode marked).node? n = some z →
      SearchTree.Follows { s.tree.setNode marked with unresolved := id :: s.tree.unresolved } x n := by
    refine fun hz => hcovers.follows.forward hwf (fun {m old z} hold hz hm => ?_) hz
    change (s.tree.setNode marked).node? m = some z at hz
    rw [SearchTree.node?_setNode, hid] at hz
    split at hz
    · next heq =>
      cases hz
      subst heq
      obtain rfl := Option.some.inj (hn.symm.trans hold)
      exact ⟨hparent, hchanges ▸ hm.changes hold⟩
    · obtain rfl := Option.some.inj (hold.symm.trans hz)
      exact ⟨rfl, hm.changes hold⟩
  by_cases hne : n = id
  · subst hne
    obtain rfl := Option.some.inj (hn.symm.trans hcovers.mem)
    have hread : (s.tree.setNode marked).node? n = some marked := by
      rw [SearchTree.node?_setNode, if_pos hid]
    exact ⟨n, marked, ⟨hread, by rw [hstatus]; rfl, hbound ▸ hcovers.bound, hfollows hread⟩,
      fun hsolving => by rw [hstatus] at hsolving; cases hsolving⟩
  · have hread : (s.tree.setNode marked).node? n = some y := by
      rw [SearchTree.node?_setNode, hid, if_neg fun heq => hne heq.symm]
      exact hcovers.mem
    exact ⟨n, y, ⟨hread, hcovers.waits, hcovers.bound, hfollows hread⟩, fun hsolving => hne (hbusy hsolving)⟩

/-- **Splitting** a node, if a child takes the point. -/
theorem Attends.split (h : Attends H hpricers hx id s) {d : BranchingDecision (Exact ℚ)}
    (hd : CoveredAt x id s → ∃ spec ∈ d.children, Meets spec.changes x) (objective : Exact ℚ) (basis : Option SavedBasis) :
    Ensures (Search.split id d objective basis) s (fun _ t => Rests H hpricers hx t) fun _ _ => True := by
  have hrests : Ensures (Search.split id d objective basis) s (fun _ t => t.Underway → Rests H hpricers hx t)
    fun _ _ => True := ?_
  · exact ((h.busy.split d objective basis).and hrests).mono (fun _ _ ht => ht.2 ht.1) fun _ _ _ => trivial
  obtain ⟨node, hn, hsolving⟩ := h.busy.solving
  by_cases hmany : 2 ≤ d.children.length
  · obtain ⟨v, hret, hsplits, -⟩ := SearchTree.pushChildren_spec h.busy.tree hn hmany objective basis
    refine .bind (.onPart (.of_returns hret (.bind (.modify (.pure fun hunderway => h.leaves hunderway
      (hsplits.grows hn) (hsplits.anchored hn h.retains.anchored) fun hq => ?_)))))
    obtain ⟨n, y, hcovers, hbusy⟩ := h.retains.covered hq
    by_cases hne : n = id
    · subst hne
      obtain ⟨spec, hspec, hmeets⟩ := hd ⟨y, hcovers⟩
      obtain rfl := Option.some.inj (hn.symm.trans hcovers.mem)
      obtain ⟨m, child, hchild, hopen⟩ := hsplits.child_covers h.busy.tree hn hunderway.tree hcovers hspec hmeets
      exact ⟨m, child, hchild, fun hsolving => by rw [hopen] at hsolving; cases hsolving⟩
    · exact ⟨n, y, hsplits.covers h.busy.tree hn hunderway.tree hcovers hne, fun hsolving => hne (hbusy hsolving)⟩
  · refine .bind (.onPart ?_)
    unfold SearchTree.pushChildren
    rw [if_pos (Nat.lt_of_not_le hmany)]
    exact .bind (.throw trivial)

/-- However the node is split, a child takes the point. -/
theorem Attends.decides (h : Attends H hpricers hx id s) {y : Point} {d : BranchingDecision (Exact ℚ)}
    (hd : s.Decides b y.vector d) (hc : CoveredAt x id s) : ∃ spec ∈ d.children, Meets spec.changes x := by
  obtain ⟨node, hcovers⟩ := hc
  have hsatisfies := h.retains.satisfies h.synced.filed.registry h.path (h.here hcovers.follows)
  exact hd.covers h.synced.carries.builtIn h.retains.branchable (hsatisfies 1)

end

/-! ## The stages of a node -/

section

variable (H : Honest sv m) (hpricers : sv.plugins.pricers = []) (hx : m.Feasible x)

/-- What is known of the point at the stages of a node. -/
def retaining (id : NodeId) : Stages (Exact ℚ) σ where
  waiting s := s.Synced (H.footing hpricers hx True) ∧ s.Retains x (m.value x) (· = id) ∧ s.Busy id
  entered path s := Attends H hpricers hx id s ∧ s.domains.path = path
  alive path _ s := Attends H hpricers hx id s ∧ s.domains.path = path
  ended _ o b lp s := Attends H hpricers hx id s ∧ Learned x id o b lp s
  recorded o b lp s := Attends H hpricers hx id s ∧ Learned x id o b lp s
  refuted s := Attends H hpricers hx id s ∧ Spent x id s
  chosen d s := Attends H hpricers hx id s ∧ (CoveredAt x id s → ∃ spec ∈ d.children, Meets spec.changes x)
  done result s := result = .continue → Rests H hpricers hx s
  fail _ _ := True

/-- **Every operation** leads from its stage to the next. -/
theorem contract_retaining (id : NodeId) : Contract (retaining H hpricers hx id) sv id where
  waiting_fails _ := trivial
  alive_fails _ := trivial
  recorded_fails _ := trivial
  enter := by
    rintro s path ⟨hsynced, hretains, hbusy⟩ hpath
    obtain ⟨node, hn, -⟩ := hbusy.solving
    obtain ⟨path', hpath', hleads, -⟩ := SearchTree.pathTo_leads hbusy.tree hn
    cases hpath.symm.trans hpath'
    refine (hretains.enterNode hsynced hbusy.tree hleads).mono ?_ fun _ _ _ => trivial
    rintro feasible t ⟨⟨ht, hretains⟩, hregistry, hdomains, hsteady, hconflict⟩
    have hattends : Attends H hpricers hx id t := by
      refine ⟨ht, hretains, hbusy.steady hsteady, ?_, by rw [hregistry, hdomains]⟩
      rw [hdomains, hsteady.tree]
      exact hleads
    split
    · exact ⟨hattends, hdomains⟩
    · next hinfeasible =>
      exact ⟨hattends, fun _ ⟨_, hcovers⟩ => hconflict (Bool.eq_false_iff.mpr hinfeasible) hcovers.follows⟩
  propagate := by
    rintro path s ⟨h, rfl⟩
    refine (h.synced.propagate.and (h.retains.propagate sv h.synced.carries.builtIn h.synced.filed.registry h.path
      h.leads)).mono ?_ fun _ _ _ => trivial
    rintro alive t ⟨⟨ht, hframe⟩, hretains, hpath, hcut⟩
    have htree : t.tree = s.tree := by rw [hframe]
    have hregistry : t.registry = s.registry := by rw [hframe]
    have hattends : Attends H hpricers hx id t := by
      refine ⟨ht, hretains, h.busy.steady ⟨htree, by rw [hframe], by rw [hframe]; exact .refl _⟩, ?_, ?_⟩
      · rw [htree, hpath]
        exact h.leads
      · rw [hregistry, hpath]
        exact h.path
    split
    · exact ⟨hattends, hpath⟩
    · next hdead =>
      refine ⟨hattends, fun _ ⟨_, hcovers⟩ => hcut (Bool.eq_false_iff.mpr hdead) (h.here ?_)⟩
      exact htree ▸ hcovers.follows
  compact := by
    rintro path replayed s ⟨h, hpath⟩
    have hrest : Ensures compactFixed s (fun _ t => t.Synced (H.footing hpricers hx True) →
        Attends H hpricers hx id t ∧ t.domains.path = path) fun _ _ => True := .modify fun ht =>
      ⟨⟨ht, h.retains.compactFixed _, h.busy.steady ⟨rfl, rfl, .compactAll _ _⟩, h.leads, h.path⟩, hpath⟩
    exact (h.synced.compactFixed.and hrest).mono (fun _ _ ht => ht.2 ht.1.1) fun _ _ _ => trivial
  rounds := by
    rintro path replayed s node ⟨h, rfl⟩ hn
    refine ((h.synced.warmStart node).and (warmStart_clerical node s)).mono ?_ fun _ _ _ => trivial
    rintro _ t ⟨⟨ht, -⟩, hclerical⟩
    have htree : t.tree = s.tree := hclerical.part Search.tree fun _ _ _ _ _ => rfl
    have hdomains : t.domains = s.domains := hclerical.part Search.domains fun _ _ _ _ _ => rfl
    exact (h.clerical ht hclerical).runRounds (htree ▸ hn) (hdomains ▸ rfl)
  record h := h.1.record h.2 _
  note h ht := ⟨h.1.clerical (h.1.synced.transfer rfl rfl rfl rfl rfl rfl rfl rfl h.1.synced.filed.named) ht,
    h.2.clerical ht⟩
  ask h heur hheur := by
    refine ((h.1.synced.askHeuristic _ hheur).and (askHeuristic_clerical _ heur _)).mono ?_ fun _ _ _ => trivial
    exact fun _ _ ⟨ht, hclerical⟩ => ⟨h.1.clerical ht hclerical, h.2.clerical hclerical⟩
  report y h := by
    refine (h.1.report y).mono ?_ fun _ _ _ => trivial
    rintro _ t ⟨ht, hproblem, hcovered, hincumbent⟩
    refine ⟨ht, h.2.transfer hproblem hcovered fun hq => ?_⟩
    have hvalue : t.valueAt x = _ := congrArg (Problem.value · x.vector) hproblem
    rw [hincumbent, hvalue] at hq
    exact h.1.busy.improves_of_offer hq
  solved h := h.1.solved h.2
  unbounded _ := nofun
  refutes h ho := ⟨h.1, h.2.spent ho⟩
  prunable h hprunable := ⟨h.1, h.2.prunable hprunable⟩
  decide := by
    rintro b lp s ⟨h, hlearned⟩
    refine ((h.synced.decide? b lp.x).and (ensures_decide? s b lp.x)).mono ?_ fun _ _ _ => trivial
    rintro choice t ⟨ht, hclerical, hdecides⟩
    have hattends := h.clerical ht hclerical
    have hlearned' := hlearned.clerical hclerical
    refine ⟨⟨hattends, hlearned'⟩, fun d hd => ⟨hattends, fun hc => ?_⟩⟩
    obtain ⟨y, hy, -⟩ := hlearned.solution (.inr rfl) lp rfl
    exact h.decides (hy ▸ hdecides d hd) ((coveredAt_clerical hclerical).mp hc)
  halve := by
    rintro o b lp s d ⟨h, -⟩ hd
    exact ⟨h, fun _ => Brancher.halve_covers (x := none) h.retains.branchable hd⟩
  close reason h := (h.1.closeNode h.2 reason).mono (fun _ _ ht _ => ht) fun _ _ _ => trivial
  keep h := h.1.keepUnresolved.mono (fun _ _ ht _ => ht) fun _ _ _ => trivial
  split objective basis h := (h.1.split h.2 objective basis).mono (fun _ _ ht _ => ht) fun _ _ _ => trivial

end

end Search

end BranchAndCut

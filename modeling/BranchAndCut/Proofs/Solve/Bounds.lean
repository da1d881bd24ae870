import BranchAndCut.Proofs.Model.Building
import BranchAndCut.Proofs.Model.Problem
import BranchAndCut.Proofs.Solve.Evolution
import BranchAndCut.Proofs.Solve.Iterations
import BranchAndCut.Proofs.Tree.BestBound

/-! # The bounds of a run

The primal bound is the value of the incumbent, and the dual bound is that of some node
which remains, or reaches the primal bound. Both hold at the start of every iteration,
whatever the oracle and the plugins answer, and say what the status of a run means. -/

namespace BranchAndCut

variable {K σ : Type} [Scalar K]

/-! ## The incumbent -/

namespace Incumbent

variable {b b' : Incumbent K} {p q : Problem K} {x : Array K}

/-- The dual bound stays below the primal one, which is the value of the incumbent for the
problem as it was when it was accepted. -/
structure Records (b : Incumbent K) (p : Problem K) : Prop where
  ordered : b.dual ≤ b.primal
  absTol : 0 ≤ b.absTol
  vacant : b.solution = none → b.updates = 0 ∧ b.primal = Scalar.inf
  found : ∀ x, b.solution = some x → 0 < b.updates ∧ Scalar.isFinite b.primal = true ∧
    ¬ b.objLimit ≤ b.primal ∧ ∃ q : Problem K, q.Extends p ∧ b.primal = q.value x

theorem Records.extends (h : b.Records p) (hp : p.Extends q) : b.Records q :=
  { h with
    found := fun x hx => by
      obtain ⟨hupdates, hfinite, hlimit, r, hr, hvalue⟩ := h.found x hx
      exact ⟨hupdates, hfinite, hlimit, r, hr.trans hp, hvalue⟩ }

variable [Scalar.Ordered K]

theorem Records.defined (h : b.Records p) :
    Scalar.isNaN b.dual = false ∧ Scalar.isNaN b.primal = false :=
  Scalar.Ordered.defined_of_le h.ordered

theorem new_records (objLimit : K) {absTol : K} (htol : 0 ≤ absTol) : (new objLimit absTol).Records p where
  ordered := Scalar.Ordered.negInf_le Scalar.Ordered.defined_inf
  absTol := htol
  vacant _ := ⟨rfl, rfl⟩
  found := nofun

/-- Accepting a solution. -/
theorem Records.offer (h : b.Records p) (hoffer : b.offer x (p.value x) = (true, b')) : b'.Records p := by
  unfold Incumbent.offer at hoffer
  split at hoffer
  · cases hoffer
  next hrefused =>
    rw [Bool.or_eq_true, Bool.or_eq_true, not_or, not_or] at hrefused
    obtain ⟨⟨hfinite, hbetter⟩, hlimit⟩ := hrefused
    replace hfinite : Scalar.isFinite (p.value x) = true := by simpa using hfinite
    have hdefined := Scalar.Ordered.defined_of_isFinite hfinite
    cases hoffer
    refine ⟨?_, h.absTol, nofun, fun y hy => ?_⟩
    · dsimp only
      split
      · exact Scalar.Ordered.le_refl hdefined
      · next hlt => exact Scalar.Ordered.le_of_not_lt h.defined.1 hdefined hlt
    · obtain rfl := Option.some.inj hy
      exact ⟨Nat.succ_pos _, hfinite, fun hle => hlimit (decide_eq_true hle), p, .refl p, rfl⟩

/-- With an incumbent, the value to beat is its own. -/
theorem Records.cutoff_eq (h : b.Records p) (hx : b.solution = some x) : b.cutoff = b.primal := by
  obtain ⟨-, -, hlimit, -⟩ := h.found x hx
  unfold cutoff Scalar.min
  rw [if_neg (by rw [h.defined.2]; nofun), if_neg fun hlt => hlimit (Scalar.Ordered.le_of_lt hlt)]

/-- The dual bound reaches the lowest bound or the primal bound. -/
theorem Records.updateDual (h : b.Records p) (lowest : K) :
    (b.updateDual lowest).Records p ∧ (b.updateDual lowest).primal = b.primal ∧
      (b.primal ≤ (b.updateDual lowest).dual ∨ lowest ≤ (b.updateDual lowest).dual) := by
  have hle := Scalar.Ordered.min_le_right (a := lowest) h.defined.2
  have hdefined := (Scalar.Ordered.defined_of_le hle).1
  have hreach : ∀ dual : K, Scalar.min lowest b.primal ≤ dual → b.primal ≤ dual ∨ lowest ≤ dual := by
    intro dual hdual
    rcases Scalar.min_cases lowest b.primal with heq | heq
    · exact .inr (heq ▸ hdual)
    · exact .inl (heq ▸ hdual)
  unfold Incumbent.updateDual
  dsimp only
  split
  · exact ⟨{ h with ordered := hle }, rfl, hreach _ (Scalar.Ordered.le_refl hdefined)⟩
  · next hlt => exact ⟨h, rfl, hreach _ (Scalar.Ordered.le_of_not_lt hdefined h.defined.1 hlt)⟩

omit [Scalar.Ordered K] in
theorem gapClosed_iff {relTol absTol : K} : b.gapClosed relTol absTol = true ↔
    Scalar.isFinite b.primal = true ∧ Scalar.isFinite b.dual = true ∧
      (b.primal - b.dual ≤ absTol ∨ b.gap ≤ relTol) := by
  unfold gapClosed
  rw [Bool.and_eq_true, Bool.and_eq_true, Bool.or_eq_true, decide_eq_true_iff, decide_eq_true_iff, and_assoc]

/-- The bounds have met, up to the tolerance of pruning. Where differences are exact, this
is a bound on their difference. -/
def Closed (b : Incumbent K) : Prop :=
  (b.primal ≤ b.dual ∨ b.primal - b.tolerance ≤ b.dual) ∧
    (Scalar.ExactSub K → b.primal - b.dual ≤ b.tolerance)

end Incumbent

/-! ## The root is taken first -/

namespace SearchTree

variable {t u : SearchTree K} {n : NodeId} {node : Node K}

/-- The root is no longer open. -/
def Started (t : SearchTree K) : Prop :=
  ∀ n node, t.node? n = some node → node.status = .open → node.parent ≠ none

omit [Scalar K] in
theorem Started.closes {gone : NodeId → Prop} (h : t.Started) (hc : Closes t u gone) : u.Started := by
  intro n x hx hopen
  obtain ⟨old, hold, hparent, -, -, hstatus⟩ := hc.nodes hx
  rcases hstatus with hsame | ⟨-, hclosed⟩
  · exact hparent ▸ h n old hold (hsame ▸ hopen)
  · rw [hopen] at hclosed
    cases hclosed

omit [Scalar K] in
theorem Started.setNode (h : t.Started) {new : Node K} (hnew : new.status ≠ .open) : (t.setNode new).Started := by
  intro n x hx hopen
  rw [node?_setNode] at hx
  split at hx
  · cases hx
    exact absurd hopen hnew
  · exact h n x hx hopen

omit [Scalar K] in
theorem Started.splits {d : BranchingDecision K} (h : t.Started) (hs : Splits t u n node d) : u.Started := by
  intro m x hx hopen
  rcases hs.read hx with ⟨-, basis, rfl⟩ | ⟨spec, -, -, hchild, -⟩ | ⟨-, -, hold⟩
  · cases hopen
  · rw [hchild.parent]
    nofun
  · exact h m x hold hopen

end SearchTree

namespace Search

variable {sv : Solver K σ} {s t : Search K σ} {id : NodeId}

/-! ## One node -/

/-- Tree and incumbent stay, and the problem grows at most. -/
structure Steady (s t : Search K σ) : Prop where
  tree : t.tree = s.tree
  incumbent : t.incumbent = s.incumbent
  problem : s.problem.Extends t.problem

omit [Scalar K] in
theorem Clerical.steady (h : s.Clerical t) : s.Steady t :=
  ⟨h.part Search.tree fun _ _ _ _ _ => rfl, h.part Search.incumbent fun _ _ _ _ _ => rfl,
    (h.part Search.problem fun _ _ _ _ _ => rfl) ▸ .refl _⟩

theorem evolves_steady : Evolves sv Steady where
  clerical h := h.steady
  trans h h' := ⟨h'.tree.trans h.tree, h'.incumbent.trans h.incumbent, h.problem.trans h'.problem⟩
  restore _ := ⟨rfl, rfl, .refl _⟩
  switchPath _ _ := ⟨rfl, rfl, .refl _⟩
  propagate s := by
    unfold Ensures
    split <;> exact ⟨rfl, rfl, .refl _⟩
  updateActivity _ _ := ⟨rfl, rfl, .refl _⟩
  separateInactive _ _ _ := ⟨rfl, rfl, .refl _⟩
  addCut _ _ := ⟨rfl, rfl, .refl _⟩
  addRow _ _ _ := ⟨rfl, rfl, .refl _⟩
  register _ := ⟨rfl, rfl, .refl _⟩
  lockCons _ _ _ := ⟨rfl, rfl, .refl _⟩
  addVar _ := fun h => ⟨rfl, rfl, .addVar h⟩
  addCoefficient _ s h c v a := by
    unfold Ensures
    split <;> exact ⟨rfl, rfl, .refl _⟩
  releaseNode _ _ := ⟨rfl, rfl, .refl _⟩
  delete _ _ _ := ⟨rfl, rfl, .refl _⟩

theorem compactFixed_steady : Preserves Steady (compactFixed : SearchM K σ Unit) :=
  .modify fun _ => ⟨rfl, rfl, .compactAll _ _⟩

/-- The tree is in order, and the incumbent keeps its record. -/
structure Accounted (s : Search K σ) : Prop where
  tree : s.tree.Wf fun _ => False
  dated : s.tree.Dated
  incumbent : s.incumbent.Records s.problem

/-- Some node has been taken up. -/
structure Underway (s : Search K σ) : Prop extends Accounted s where
  started : s.tree.Started

/-- A node is being processed. -/
structure Busy (s : Search K σ) (id : NodeId) : Prop extends Underway s where
  solving : ∃ node, s.tree.node? id = some node ∧ node.status = .solving

theorem Accounted.steady (h : s.Accounted) (hst : s.Steady t) : t.Accounted :=
  ⟨hst.tree ▸ h.tree, hst.tree ▸ h.dated, hst.incumbent ▸ h.incumbent.extends hst.problem⟩

theorem Underway.steady (h : s.Underway) (hst : s.Steady t) : t.Underway :=
  ⟨h.toAccounted.steady hst, hst.tree ▸ h.started⟩

theorem Busy.steady (h : s.Busy id) (hst : s.Steady t) : t.Busy id :=
  ⟨h.toUnderway.steady hst, hst.tree ▸ h.solving⟩

/-- Operations that leave tree and incumbent alone. -/
theorem Busy.along {α : Type} (h : s.Busy id) {m : SearchM K σ α} (hm : Preserves Steady m) :
    Ensures m s (fun _ t => t.Busy id) fun _ _ => True :=
  (hm s).mono (fun _ _ => h.steady) fun _ _ _ => trivial

theorem Busy.clerical {α : Type} (h : s.Busy id) {m : SearchM K σ α} (hm : Preserves Clerical m) :
    Ensures m s (fun _ t => t.Busy id) fun _ _ => True :=
  h.along (hm.mono fun _ _ => Clerical.steady)

theorem Busy.modifyStats (h : s.Busy id) (f : Stats → Stats) :
    Ensures (modifyStats f) s (fun _ t => t.Busy id) fun _ _ => True :=
  .modify (h.steady ⟨rfl, rfl, .refl _⟩)

theorem Busy.attempt (_ : s.Busy id) {α : Type} (r : Except (Error K) α) :
    Ensures (attempt r) s (fun a t => t = s ∧ r = .ok a) fun _ _ => True :=
  (ensures_attempt r s).mono (fun _ _ h => h) fun _ _ _ => trivial

/-- Only open nodes are in the queue. -/
theorem Busy.not_queued (h : s.Busy id) : id ∉ s.tree.queue.members := by
  intro hm
  obtain ⟨node, hn, hsolving⟩ := h.solving
  obtain ⟨node', hn', hopen⟩ := h.tree.isOpen hm
  obtain rfl := Option.some.inj (hn.symm.trans hn')
  rw [hsolving] at hopen
  cases hopen

variable [Scalar.Ordered K]

/-- The bound of the node is raised. -/
theorem Busy.raiseBound (h : s.Busy id) (bound : K) :
    Busy { s with tree := s.tree.modifyNode id (·.raiseBound bound) } id := by
  obtain ⟨node, hn, hsolving⟩ := h.solving
  obtain ⟨hid, -, -, hstatus, -⟩ := node.raiseBound_place bound
  have hstarted : (s.tree.modifyNode id (·.raiseBound bound)).Started := by
    rw [SearchTree.modifyNode_eq hn]
    exact h.started.setNode (by rw [hstatus, hsolving]; nofun)
  refine ⟨⟨⟨h.tree.raiseBound hn hsolving bound, h.dated.modifyNode id _, h.incumbent⟩, hstarted⟩,
    node.raiseBound bound, ?_, hstatus.trans hsolving⟩
  show (s.tree.modifyNode id _).node? id = _
  rw [SearchTree.modifyNode_eq hn, SearchTree.node?_setNode, if_pos (hid.trans (h.tree.id hn))]

/-- What propagation found is recorded at the node. -/
theorem Busy.recordChanges (h : s.Busy id) (changes : List (BoundChange K)) :
    Ensures (onTree (SearchTree.recordChanges id changes)) s (fun _ t => t.Busy id) fun _ _ => True := by
  obtain ⟨node, hn, hsolving⟩ := h.solving
  obtain ⟨hret, hwf⟩ := SearchTree.recordChanges_spec h.tree hn hsolving changes
  refine .onPart (.of_returns hret ?_)
  refine ⟨⟨⟨hwf, (h.dated.recordChanges id changes).returns hret, h.incumbent⟩,
    h.started.setNode (by rw [hsolving]; nofun)⟩, { node with changes := node.changes ++ changes }, ?_, hsolving⟩
  rw [SearchTree.node?_setNode]
  exact if_pos (h.tree.id hn)

/-- Offering a solution. -/
theorem Busy.report (h : s.Busy id) (x : Array K) :
    Ensures (report x) s (fun _ t => t.Busy id) fun _ _ => True := by
  unfold Search.report
  refine .bind (.get ?_)
  split
  · exact .pure h
  · next incumbent hoffer =>
    have hqueue : Queue.Wf { s.tree.queue with hasIncumbent := true } :=
      ⟨h.tree.queue.byBound, h.tree.queue.byDepth, h.tree.queue.byEstimate⟩
    have hwf : (s.tree.setHasIncumbent true).Wf fun _ => False :=
      h.tree.withQueue hqueue (fun hm => hm) (fun he _ => he) fun _ hout => hout
    have hdated : (s.tree.setHasIncumbent true).Dated := h.dated
    obtain ⟨count, v, hret, hv, hcloses⟩ := SearchTree.pruneDominated_spec hwf incumbent.isPrunable
    obtain ⟨node, hn, hsolving⟩ := h.solving
    have hnot : ¬ (s.tree.setHasIncumbent true).Dominated incumbent.isPrunable id := by
      rintro ⟨node', hn', hopen, -⟩
      obtain rfl := Option.some.inj (hn.symm.trans hn')
      rw [hsolving] at hopen
      cases hopen
    obtain ⟨x', hx'⟩ := hcloses.kept hn (by rw [hsolving]; rfl) hnot
    obtain ⟨old, hold, -, -, -, hstatus⟩ := hcloses.nodes hx'
    obtain rfl := Option.some.inj (hn.symm.trans hold)
    refine .bind (.set (.bind (.onPart (.of_returns hret (.pure ?_)))))
    have hstarted : (s.tree.setHasIncumbent true).Started := h.started
    exact ⟨⟨⟨hv, (hdated.pruneDominated _).returns hret, h.incumbent.offer hoffer⟩, hstarted.closes hcloses⟩,
      x', hx', (hstatus.resolve_right fun hg => hnot hg.1).trans hsolving⟩

theorem Busy.trySolution (h : s.Busy id) (x : Array K) :
    Ensures (trySolution sv x) s (fun _ t => t.Busy id) fun _ _ => True := by
  unfold Search.trySolution
  refine .bind (.get ?_)
  split
  · exact .pure h
  · split
    · exact .pure h
    · split
      · exact .pure h
      · exact h.report x

theorem Busy.runHeuristics (h : s.Busy id) (x : Array K) :
    Ensures (runHeuristics sv x) s (fun _ t => t.Busy id) fun _ _ => True := by
  unfold Search.runHeuristics
  refine .bind (.get (.bind_mono (h.clerical (.mapM fun heur => askHeuristic_clerical _ heur)) fun proposed t ht => ?_))
  refine Ensures.forM (I := fun _ t => Busy t id) (fun point _ u hu => ?_) ht
  cases point with
  | none => exact .pure hu
  | some y =>
    refine .bind_mono (hu.trySolution y) fun better v hv => ?_
    split
    · exact hv.modifyStats _
    · exact .pure hv

theorem Busy.closeNode (h : s.Busy id) (reason : PruneReason) :
    Ensures (closeNode id reason) s (fun _ t => t.Underway) fun _ _ => True := by
  refine .bind_mono (h.modifyStats _) fun _ t ht => ?_
  obtain ⟨node, hn, hsolving⟩ := ht.solving
  obtain ⟨v, hret, hv, hcloses, -⟩ := SearchTree.close_spec ht.tree hn (.inr hsolving) ht.not_queued reason
  refine .bind (.onPart (.of_returns hret (.pure ⟨⟨?_, (ht.dated.close id _).returns hret, ht.incumbent⟩, ?_⟩)))
  · exact hv.mono fun _ _ _ hout => hout.1
  · exact ht.started.closes hcloses

theorem Busy.keepUnresolved (h : s.Busy id) :
    Ensures (keepUnresolved id) s (fun _ t => t.Underway) fun _ _ => True := by
  obtain ⟨node, hn, hsolving⟩ := h.solving
  obtain ⟨hret, hwf⟩ := SearchTree.markUnresolved_spec h.tree hn hsolving
  exact .bind (.onPart (.of_returns hret (.pure
    ⟨⟨hwf, (h.dated.markUnresolved id).returns hret, h.incumbent⟩, h.started.setNode nofun⟩)))

omit [Scalar.Ordered K] in
theorem Busy.split (h : s.Busy id) (d : BranchingDecision K) (objective : K) (basis : Option SavedBasis) :
    Ensures (split id d objective basis) s (fun _ t => t.Underway) fun _ _ => True := by
  obtain ⟨node, hn, hsolving⟩ := h.solving
  by_cases hmany : 2 ≤ d.children.length
  · obtain ⟨v, hret, hsplits, hqueue⟩ := SearchTree.pushChildren_spec h.tree hn hmany objective basis
    have hv := hsplits.wf h.tree hn hmany hsolving hqueue
    have hdated := (h.dated.pushChildren id d objective basis).returns hret
    exact .bind (.onPart (.of_returns hret (.bind (.modify (.pure
      ⟨⟨hv, hdated, h.incumbent⟩, h.started.splits hsplits⟩)))))
  · refine .bind (.onPart ?_)
    unfold SearchTree.pushChildren
    rw [if_pos (Nat.lt_of_not_le hmany)]
    exact .bind (.throw trivial)

theorem Busy.branch (h : s.Busy id) (bound : K) (lp : Relaxation K) :
    Ensures (branch sv id bound lp) s (fun _ t => t.Underway) fun _ _ => True := by
  unfold Search.branch
  refine .iteBind (I := fun t : Search K σ => t.Busy id) (fun _ => h.runHeuristics lp.x) (fun _ => h) fun t ht => ?_
  refine .bind (.get ?_)
  split
  · exact ht.closeNode _
  · refine .bind_mono (ht.clerical (decide?_clerical bound lp.x)) fun choice u hu => ?_
    split
    · exact .bind (.get (hu.split ..))
    · exact .bind_mono (hu.modifyStats _) fun _ _ hv => hv.keepUnresolved

theorem Busy.branchBlindly (h : s.Busy id) (bound : K) :
    Ensures (branchBlindly id bound) s (fun _ t => t.Underway) fun _ _ => True := by
  refine .bind_mono (h.modifyStats _) fun _ t ht => .bind (.get (.bind_mono (ht.attempt _) ?_))
  rintro choice _ ⟨rfl, -⟩
  split
  · exact ht.split ..
  · exact ht.keepUnresolved

theorem Busy.conclude (h : s.Busy id) (outcome : RoundOutcome) (bound : K) (lp : Option (Relaxation K)) :
    Ensures (conclude sv id outcome bound lp) s (fun _ t => t.Underway) fun _ _ => True := by
  unfold Search.conclude
  split
  · exact .pure h.toUnderway
  · exact h.closeNode _
  · exact h.closeNode _
  · exact h.closeNode _
  · exact .bind_mono (h.report _) fun _ _ ht => ht.closeNode _
  · exact h.branch bound _
  · exact h.branchBlindly bound

/-- **Processing a node** keeps the accounts. -/
theorem Busy.processNode (h : s.Busy id) :
    Ensures (processNode sv id) s (fun _ t => t.Underway) fun _ _ => True := by
  unfold Search.processNode
  refine .bind (.get (.bind_mono (h.attempt _) ?_))
  rintro path s ⟨rfl, hpath⟩
  have hentered : Ensures (Search.enterNode sv path) s (fun _ t => t.Busy id) fun _ _ => True :=
    (evolves_steady.enterNode hpath).mono (fun _ _ => h.steady) fun _ _ _ => trivial
  refine .bind_mono hentered fun feasible t ht => ?_
  dsimp only
  split
  · exact ht.closeNode _
  refine .bind (.get (.bind_mono (ht.along evolves_steady.propagate') fun alive u hu => ?_))
  split
  · exact hu.closeNode _
  refine .iteBind (I := fun t : Search K σ => t.Busy id) (fun _ => hu.along compactFixed_steady) (fun _ => hu) fun v hv => ?_
  refine .bind (.get (.bind_mono (hv.attempt _) ?_))
  rintro node _ ⟨rfl, -⟩
  refine .bind_mono (hv.clerical (warmStart_clerical node)) fun _ w hw => ?_
  refine .bind_mono (hw.along (evolves_steady.runRounds node _)) ?_
  rintro ⟨outcome, bound, lp⟩ x hx
  refine .bind (.modify (.bind (.get (.bind_mono ((hx.raiseBound bound).recordChanges _) fun _ y hy => ?_))))
  exact hy.conclude ..

/-! ## The search -/

omit [Scalar.Ordered K] in
/-- Nodes that have left the tree leave the rest of the search. -/
theorem Underway.releaseNodes (h : s.Underway) :
    Ensures (releaseNodes sv) s (fun _ t => t.Underway) fun _ _ => True := by
  have hdrained : Underway { s with tree := s.tree.drainReleased.2 } :=
    ⟨⟨{ h.tree with }, h.dated, h.incumbent⟩, h.started⟩
  have hevolves : Evolves sv Steady := evolves_steady
  have := hevolves.toEnters.isRefl
  have := hevolves.toEnters.isTrans
  refine .bind (.modifyGet ?_)
  exact (Preserves.forM (fun id => hevolves.releaseNode' id) _).mono (fun _ _ => hdrained.steady)
    fun _ _ _ => trivial

/-- A node whose bound is at most the dual bound remains, or the bounds have met. -/
def Backed (s : Search K σ) : Prop :=
  s.incumbent.primal ≤ s.incumbent.dual ∨
    ∃ n node, s.tree.Remains n node ∧ node.dualBound ≤ s.incumbent.dual

theorem Underway.updateDual (h : s.Underway) (ht : Returns updateDual s ⟨⟩ t) : t.Underway ∧ t.Backed := by
  obtain rfl := ht.modify
  obtain ⟨hrecords, hprimal, hreach⟩ := h.incumbent.updateDual s.tree.lowestBound.1
  refine ⟨⟨⟨h.tree.lowestBound_wf, h.dated.lowestBound_dated, hrecords⟩, h.started⟩, ?_⟩
  rcases hreach with hmet | hlowest
  · exact .inl (hprimal ▸ hmet)
  · rcases h.tree.lowestBound h.dated with hinf | ⟨n, node, hremains, hbound⟩
    · have hinf' := Scalar.Ordered.le_inf hrecords.defined.2
      rw [← hinf] at hinf'
      exact .inl (Scalar.Ordered.le_trans hinf' hlowest)
    · exact .inr ⟨n, node, hremains, hbound ▸ hlowest⟩

/-- Before the first node is taken up, there is no other. -/
def Begun (s : Search K σ) : Prop := s.tree.Started ∨ s.tree.nextId = 1

/-- The state before the first node. -/
theorem accounted_root {w : σ} {m : Model K σ} (htol : 0 ≤ sv.settings.feasTol) {s t : Search K σ}
    (hsetUp : Returns (setUp sv) (.ofModel sv m w) ⟨⟩ s)
    (hroot : Returns (onTree (SearchTree.createRoot Scalar.negInf)) s id t) :
    t.Accounted ∧ t.Backed ∧ t.Begun := by
  obtain ⟨htree, objLimit, hnew⟩ := ofModel_start sv m w
  have hsteady := (setUp_clerical.mono (fun _ _ => Clerical.steady) _).returns hsetUp
  have hincumbent : s.incumbent.Records s.problem := by
    rw [hsteady.incumbent, hnew]
    exact Incumbent.new_records _ htol
  obtain ⟨u, hret, hwf, hnext, -, hnodes⟩ := SearchTree.createRoot_spec sv.settings.nodeSelection (Scalar.negInf : K)
  have hdated := ((SearchTree.new_dated sv.settings.nodeSelection).createRoot (Scalar.negInf : K)).returns hret
  rw [← htree, ← hsteady.tree] at hret
  obtain ⟨u', hret', rfl⟩ := hroot.onPart
  obtain ⟨rfl, rfl⟩ := hret.unique hret'
  refine ⟨⟨hwf, hdated, hincumbent⟩, .inr ⟨0, _, ⟨(hnodes 0).trans (if_pos rfl), .inl rfl⟩, ?_⟩, .inr hnext⟩
  exact Scalar.Ordered.negInf_le hincumbent.defined.1

/-! ## What the status means -/

/-- What the end of a run with a status says of tree and bounds. -/
structure Justifies (sv : Solver K σ) (s : Search K σ) (status : Status) : Prop where
  optimal : status = .optimal →
    s.incumbent.solution.isSome = true ∧ s.tree.numUnresolved = 0 ∧ s.incumbent.Closed
  infeasible : status = .infeasible → s.incumbent.solution = none
  gapLimit : status = .gapLimit → Scalar.isFinite s.incumbent.primal = true ∧
    Scalar.isFinite s.incumbent.dual = true ∧
    (s.incumbent.primal - s.incumbent.dual ≤ sv.settings.gapAbsTol ∨ s.incumbent.gap ≤ sv.settings.gapTol)
  limits : status ∈ [.nodeLimit, .timeLimit, .openNodeLimit, .interrupted, .gapLimit] →
    ∃ n node, s.tree.node? n = some node ∧ node.status = .open
  trouble : status = .numericalTrouble → ∃ n node, s.tree.node? n = some node ∧ node.status = .unresolved

omit [Scalar.Ordered K] in
/-- A limit ends a run only while a node is open. -/
theorem Accounted.limit? (h : s.Accounted) {status : Status} (hlimit : s.limit? sv = some status) :
    s.Justifies sv status := by
  unfold Search.limit? at hlimit
  dsimp only at hlimit
  split at hlimit
  · cases hlimit
  next hopen =>
    have hnode : ∃ n node, s.tree.node? n = some node ∧ node.status = .open := by
      have hsome : s.tree.queue.members.isEmpty = false := by
        rw [Std.TreeMap.isEmpty_eq_size_eq_zero]
        exact decide_eq_false hopen
      obtain ⟨n, hn⟩ := Std.TreeMap.isEmpty_eq_false_iff_exists_mem.mp hsome
      exact ⟨n, h.tree.isOpen hn⟩
    split at hlimit
    · cases hlimit
      exact ⟨nofun, nofun, nofun, fun _ => hnode, nofun⟩
    split at hlimit
    · cases hlimit
      exact ⟨nofun, nofun, nofun, fun _ => hnode, nofun⟩
    split at hlimit
    · cases hlimit
      exact ⟨nofun, nofun, nofun, fun _ => hnode, nofun⟩
    split at hlimit
    · cases hlimit
      exact ⟨nofun, nofun, nofun, fun _ => hnode, nofun⟩
    split at hlimit
    · next hclosed =>
      cases hlimit
      exact ⟨nofun, nofun, fun _ => Incumbent.gapClosed_iff.mp hclosed, fun _ => hnode, nofun⟩
    · cases hlimit

/-- With an incumbent, and no node left but dominated ones, the bounds have met. -/
theorem Accounted.closed (h : s.Accounted) (hbacked : s.Backed) {x : Array K}
    (hx : s.incumbent.solution = some x)
    (hleft : ∀ n node, s.tree.Remains n node → s.incumbent.isPrunable node.dualBound = true) :
    s.incumbent.Closed := by
  obtain ⟨-, hfinite, -⟩ := h.incumbent.found x hx
  have hcutoff := h.incumbent.cutoff_eq hx
  have hnonneg : 0 ≤ s.incumbent.tolerance := by
    unfold Incumbent.tolerance
    dsimp only
    rw [hcutoff, if_pos hfinite]
    exact Scalar.Ordered.le_trans h.incumbent.absTol (Scalar.Ordered.le_max_left
      (Scalar.Ordered.defined_of_le h.incumbent.absTol).2)
  rcases hbacked with hmet | ⟨n, node, hremains, hbound⟩
  · exact ⟨.inl hmet, fun _ =>
      Scalar.ExactSub.sub_le_comm hfinite (Scalar.ExactSub.sub_le_of_le hfinite hmet hnonneg)⟩
  · have hprunable := of_decide_eq_true (hleft n node hremains)
    rw [hcutoff] at hprunable
    have hwithin := Scalar.Ordered.le_trans hprunable hbound
    exact ⟨.inr hwithin, fun _ => Scalar.ExactSub.sub_le_comm hfinite hwithin⟩

/-- **An exhausted tree** leaves unresolved nodes, or an incumbent that the bounds have met,
or nothing. -/
theorem Accounted.exhausted (h : s.Accounted) (hbacked : s.Backed)
    (hpop : Returns (onTree (SearchTree.popNext s.incumbent.isPrunable)) s none t) :
    t.Accounted ∧ t.Justifies sv t.exhausted := by
  obtain ⟨u, hret, rfl⟩ := hpop.onPart
  obtain ⟨next, u', hret', hwf, v, hcloses, htakes⟩ := SearchTree.popNext_spec h.tree s.incumbent.isPrunable
  obtain ⟨rfl, rfl⟩ := hret'.unique hret
  obtain ⟨rfl, hnone⟩ := htakes
  have hdated := (h.dated.popNext _).returns hret
  refine ⟨⟨hwf, hdated, h.incumbent⟩, ?_⟩
  unfold Search.exhausted
  split
  · next hunresolved =>
    refine ⟨nofun, nofun, nofun, nofun, fun _ => ?_⟩
    obtain ⟨n, hn⟩ := List.exists_mem_of_length_pos hunresolved
    exact ⟨n, hwf.listed.mp hn⟩
  · next hresolved =>
    have hzero := Nat.eq_zero_of_not_pos hresolved
    split
    · next hsolution =>
      obtain ⟨x, hx⟩ := Option.isSome_iff_exists.mp hsolution
      refine ⟨fun _ => ⟨hsolution, hzero, h.closed hbacked hx fun n node hn => ?_⟩, nofun, nofun, nofun, nofun⟩
      -- what remained was closed as dominated, since nothing remains
      rcases hn with ⟨hn, hopen | hunresolved⟩
      · by_contra hkeep
        have hnot : ¬ s.tree.Dominated s.incumbent.isPrunable n := by
          rintro ⟨node', hn', -, hprunable⟩
          obtain rfl := Option.some.inj (hn.symm.trans hn')
          exact hkeep hprunable
        obtain ⟨x, hx⟩ := hcloses.kept hn (by rw [hopen]; rfl) hnot
        obtain ⟨old, hold, -, -, -, hstatus⟩ := hcloses.nodes hx
        obtain rfl := Option.some.inj (hn.symm.trans hold)
        exact hnone n x hx ((hstatus.resolve_right fun hg => hnot hg.1).trans hopen)
      · have hmem := h.tree.listed.mpr ⟨node, hn, hunresolved⟩
        rw [← hcloses.unresolved, List.eq_nil_of_length_eq_zero hzero] at hmem
        cases hmem
    · next hsolution =>
      exact ⟨nofun, fun _ => Option.not_isSome_iff_eq_none.mp hsolution, nofun, nofun, nofun⟩

/-- The next node is taken to be processed. -/
theorem Accounted.popNext (h : s.Accounted) (hbegun : s.Begun) {prunable : K → Bool}
    (hpop : Returns (onTree (SearchTree.popNext prunable)) s (some id) t) : t.Busy id := by
  obtain ⟨u, hret, rfl⟩ := hpop.onPart
  obtain ⟨next, u', hret', hwf, v, hcloses, htakes⟩ := SearchTree.popNext_spec h.tree prunable
  obtain ⟨rfl, rfl⟩ := hret'.unique hret
  obtain ⟨node, hn, hid, -, -, rfl⟩ := htakes
  have hstarted : (v.setNode { node with status := .solving }).Started := by
    rcases hbegun with hstarted | hnext
    · exact (hstarted.closes hcloses).setNode nofun
    · -- the only node is the one taken
      have honly : ∀ {m x}, v.node? m = some x → m = 0 := fun {m x} hx => by
        obtain ⟨old, hold, -⟩ := hcloses.nodes hx
        exact Nat.lt_one_iff.mp (hnext ▸ h.tree.fresh hold)
      intro m x hx hopen
      rw [SearchTree.node?_setNode] at hx
      split at hx
      · cases hx
        cases hopen
      · next hne =>
        exact absurd (hid.trans ((honly hn).trans (honly hx).symm)) hne
  refine ⟨⟨⟨hwf, (h.dated.popNext _).returns hret, h.incumbent⟩, hstarted⟩, { node with status := .solving }, ?_, rfl⟩
  rw [SearchTree.node?_setNode]
  exact if_pos hid

omit [Scalar.Ordered K] in
/-- Once a node has been taken up, the nodes that follow lie deeper. -/
theorem Accounted.popNext_deep [IsTrans K (· < ·)] (h : s.Accounted) (hstarted : s.tree.Started) {prunable : K → Bool}
    (hpop : Returns (onTree (SearchTree.popNext prunable)) s (some id) t) {path : List NodeId}
    (hpath : t.tree.pathTo id = .ok path) : path.length - 1 ≠ 0 := by
  obtain ⟨u, hret, rfl⟩ := hpop.onPart
  obtain ⟨next, u', hret', hwf, v, hcloses, htakes⟩ := SearchTree.popNext_spec h.tree prunable
  obtain ⟨rfl, rfl⟩ := hret'.unique hret
  obtain ⟨node, hn, hid, hopen, -, rfl⟩ := htakes
  obtain ⟨q, hq⟩ := Option.ne_none_iff_exists'.mp (hstarted.closes hcloses id node hn hopen)
  have hsolving : (v.setNode { node with status := .solving }).node? id = some { node with status := .solving } := by
    rw [SearchTree.node?_setNode]
    exact if_pos hid
  obtain ⟨_, -, -, -, hdepth, -⟩ := hwf.parent hsolving hq
  obtain ⟨path', hpath', -, hlength⟩ := SearchTree.pathTo_leads hwf hsolving
  cases hpath.symm.trans hpath'
  rw [hlength]
  show node.depth + 1 - 1 ≠ 0
  rw [Nat.add_sub_cancel, hdepth]
  exact Nat.succ_ne_zero _

/-- **One iteration** keeps the accounts; the status it ends with is justified. -/
theorem Accounted.step (h : s.Accounted) (hbacked : s.Backed) (hbegun : s.Begun) {answer : Option Status}
    (hstep : Returns (step sv) s answer t) : t.Accounted ∧ (answer = none → t.Backed ∧ t.tree.Started) ∧
      ∀ status, answer = some status → t.Justifies sv status := by
  rcases step_cases hstep with ⟨status, hlimit, rfl, rfl⟩ | ⟨-, u, hpop, rfl, rfl⟩ |
    ⟨-, id, u, hpop, result, v, w, hprocess, hrelease, hrest⟩
  · exact ⟨h, nofun, fun _ heq => Option.some.inj heq ▸ h.limit? hlimit⟩
  · obtain ⟨hu, hjustified⟩ := h.exhausted hbacked hpop
    exact ⟨hu, nofun, fun _ heq => Option.some.inj heq ▸ hjustified⟩
  · have hbusy := (h.popNext hbegun hpop).steady (t := { u with
      stats := { u.stats with nodesProcessed := u.stats.nodesProcessed + 1 } }) ⟨rfl, rfl, .refl _⟩
    have hw := (hbusy.processNode.returns hprocess).releaseNodes.returns hrelease
    rcases hrest with ⟨-, rfl, rfl⟩ | ⟨-, rfl, hdual⟩
    · exact ⟨hw.toAccounted, nofun, fun _ heq => Option.some.inj heq ▸ ⟨nofun, nofun, nofun, by simp, nofun⟩⟩
    · obtain ⟨ht, hbacked'⟩ := hw.updateDual hdual
      exact ⟨ht.toAccounted, fun _ => ⟨hbacked', ht.started⟩, nofun⟩

/-- At the start of every iteration the accounts are in order. -/
theorem Visits.accounted {w : σ} {m : Model K σ} (htol : 0 ≤ sv.settings.feasTol)
    (h : Visits sv (.ofModel sv m w) s) : s.Accounted ∧ s.Backed ∧ s.Begun :=
  h.invariant (fun _ _ _ hsetUp _ hroot => accounted_root htol hsetUp hroot) fun _ _ hs hstep =>
    have ht := hs.1.step hs.2.1 hs.2.2 hstep
    ⟨ht.1, (ht.2.1 rfl).1, .inl (ht.2.1 rfl).2⟩

/-- What a result says of the search that it comes from. -/
structure Accurate (sv : Solver K σ) (out : Outcome K) (s : Search K σ) : Prop where
  justified : s.Justifies sv out.status
  ordered : s.incumbent.dual ≤ s.incumbent.primal
  primalBound : out.primalBound = s.problem.external s.incumbent.primal
  dualBound : ∃ dual, out.dualBound = s.problem.external dual ∧ dual ≤ s.incumbent.primal
  present : out.x.isSome = true ↔ 0 < out.stats.incumbentUpdates
  value : out.x.isSome = true → ∃ x p, s.incumbent.solution = some x ∧ Problem.Extends p s.problem ∧
    s.incumbent.primal = p.value x ∧ (x.size ≤ p.numVars → s.incumbent.primal = s.problem.value x)

theorem finish_accurate (hrecords : s.incumbent.Records s.problem) {status : Status}
    (hjustified : s.Justifies sv status) : Accurate sv (s.finish status) s := by
  have hpresent : (s.finish status).x.isSome = s.incumbent.solution.isSome := Option.isSome_map
  refine ⟨hjustified, hrecords.ordered, rfl, ⟨_, rfl, ?_⟩, ?_, fun hx => ?_⟩
  · split
    · exact Scalar.Ordered.negInf_le hrecords.defined.2
    · rw [(hrecords.vacant (hjustified.infeasible rfl)).2]
      exact Scalar.Ordered.le_refl Scalar.Ordered.defined_inf
    · exact hrecords.ordered
  · rw [hpresent]
    change _ ↔ 0 < s.incumbent.updates
    cases hsolution : s.incumbent.solution with
    | none => simp [(hrecords.vacant hsolution).1]
    | some x => simp [(hrecords.found x hsolution).1]
  · rw [hpresent, Option.isSome_iff_exists] at hx
    obtain ⟨x, hsolution⟩ := hx
    obtain ⟨-, -, -, p, hp, hvalue⟩ := hrecords.found x hsolution
    exact ⟨x, p, hsolution, hp, hvalue, fun hsize => hvalue.trans (hp.value_eq hsize).symm⟩

/-- **Status and bounds of a solve are consistent**, whatever the oracle and the plugins do and
whatever signals come in between: the dual bound never exceeds the primal bound, and the result
says what the tree and the incumbent bear out. An optimal value is proved up to the tolerance as
the search computes it. -/
theorem solve_accurate (hvalid : sv.settings.validate = .ok ⟨⟩) (m : Model K σ) (w : σ) :
    (∀ s, Visits sv (.ofModel sv m w) s → s.incumbent.dual ≤ s.incumbent.primal) ∧
      ∀ out, (sv.solve m w).1 = .ok out →
        ∃ s, Returns (run sv) (.ofModel sv m w) out s ∧ Accurate sv out s := by
  obtain ⟨-, -, hpos, -⟩ := Settings.validate_spec hvalid
  have htol := Scalar.Ordered.le_of_lt hpos
  refine ⟨fun s hs => (hs.accounted htol).1.incumbent.ordered, fun out hout => ?_⟩
  obtain ⟨t, hrun⟩ := sv.solve_returns hout
  refine ⟨t, hrun, ?_⟩
  rcases run_ends hrun with ⟨hsetUp, -, rfl⟩ | ⟨s, status, hs, hstep, rfl⟩
  · obtain ⟨-, objLimit, hnew⟩ := ofModel_start sv m w
    have hsteady := (setUp_clerical.mono (fun _ _ => Clerical.steady) _).returns hsetUp
    have hnone : t.incumbent = Incumbent.new objLimit sv.settings.feasTol := hsteady.incumbent.trans hnew
    refine finish_accurate (hnone ▸ Incumbent.new_records objLimit htol) ⟨nofun, fun _ => ?_, nofun, by simp, nofun⟩
    rw [hnone]
    rfl
  · obtain ⟨haccounted, hbacked, hbegun⟩ := hs.accounted htol
    obtain ⟨ht, -, hjustified⟩ := haccounted.step hbacked hbegun hstep
    exact finish_accurate ht.incumbent (hjustified status rfl)

/-- One variable to be maximised, which is 0 or 1. -/
def choice : Model (Exact ℚ) Unit := Model.after (Model.addVar "x" .binary 0 1 (-1)) (.new "choice")

/-- A solver whose oracle finds the value 1. -/
def choosing : Solver (Exact ℚ) Unit where
  settings := Settings.default
  oracle := {
    addColumns _ := pure ()
    addRows _ := pure ()
    removeRows _ := pure ()
    row? _ _ := none
    setBounds _ _ := pure ()
    solve := pure { Relaxation.ofStatus .optimal with objective := -1, x := #[1] }
    saveBasis _ := none
    restoreBasis _ w := w
    clearBasis w := w
    tableauRows _ _ := .ok [] }
  steps := 20

theorem choice_built : choice.Built := (Model.Built.new _).addVar ..

/-- The value 1 is found at the root. -/
theorem choosing_solves : ∃ out, (choosing.solve choice ()).1 = .ok out ∧ out.status = .optimal ∧
    out.stats.nodesProcessed = 1 := by
  have hfound : (match (choosing.solve choice ()).1 with
      | .ok out => decide (out.status = .optimal ∧ out.stats.nodesProcessed = 1)
      | .error _ => false) = true := by
    unfold Solver.solve Search.ofModel Propagator.new
    dsimp only
    rw [Handlers.sorted_builtIn choice_built.arranged.builtIn]
    decide +kernel
  cases hout : (choosing.solve choice ()).1 with
  | error e =>
    rw [hout] at hfound
    cases hfound
  | ok out =>
    rw [hout] at hfound
    exact ⟨out, rfl, of_decide_eq_true hfound⟩

theorem solve_accurate_choice : choosing.settings.validate = .ok ⟨⟩ ∧ ∃ out s,
    (choosing.solve choice ()).1 = .ok out ∧ out.status = .optimal ∧
      Returns (run choosing) (.ofModel choosing choice ()) out s ∧ Accurate choosing out s := by
  have hvalid : choosing.settings.validate = .ok ⟨⟩ := by decide +kernel
  obtain ⟨out, hout, hoptimal, -⟩ := choosing_solves
  obtain ⟨s, hs⟩ := (solve_accurate hvalid choice ()).2 out hout
  exact ⟨hvalid, out, s, hout, hoptimal, hs⟩

/-! Rounding comes between the comparison and the difference: pruning compares the value to
beat, less the tolerance, with the bound of a node, and that subtraction is rounded. -/

/-- One integer variable of machine numbers. -/
def counting : Model Float Nat := Model.after (Model.addVar "x" .integer 1 4 1) (.new "counting")

/-- What an oracle answers call by call. It fails once a column was added. -/
def answers : Nat → Relaxation Float
  | 0 => { Relaxation.ofStatus .optimal with objective := 0.5, x := #[1.5] }
  | 1 => Relaxation.ofStatus .infeasible
  | 2 => { Relaxation.ofStatus .optimal with objective := 0.5, x := #[1.5] }
  | _ => Relaxation.ofStatus .numericalTrouble

/-- A solver with that oracle and a pricer that knows a bound below the root, just under what
a value of 1 leaves after the tolerance. -/
def erring : Solver Float Nat where
  settings := Settings.default
  oracle := {
    addColumns _ := pure ()
    addRows _ := pure ()
    removeRows _ := pure ()
    row? _ _ := none
    setBounds _ _ := pure ()
    solve := fun k => .ok (answers k) (k + 1)
    saveBasis _ := none
    restoreBasis _ w := w
    clearBasis w := w
    tableauRows _ _ := .ok [] }
  plugins := { pricers := [{
    name := "columns"
    generate p := pure (if p.depth = 0 then { columns := [] } else {
      columns := [{ name := "z", type := .continuous, lower := 0, upper := 1, obj := 0, coefs := [] }]
      lowerBound := some 0.999999 }) }] }
  steps := 20

theorem counting_built : counting.Built := (Model.Built.new _).addVar ..

/-- **A difference beyond the tolerance.** The value 1 is found, a node without a solution is
left with the bound 0.999999 and dropped as dominated, and the run ends as optimal, though the
difference of the two is rounded to more than the tolerance. -/
theorem erring_beyond_tolerance : erring.settings.validate = .ok ⟨⟩ ∧ ∃ out s,
    (erring.solve counting 0).1 = .ok out ∧ Returns (run erring) (.ofModel erring counting 0) out s ∧
      out.status = .optimal ∧ ¬ s.incumbent.primal - s.incumbent.dual ≤ s.incumbent.tolerance := by
  have hvalid : erring.settings.validate = .ok ⟨⟩ := by decide +kernel
  have hfound : (match run erring (.ofModel erring counting 0) with
      | .ok out s => decide (out.status = .optimal ∧ ¬ s.incumbent.primal - s.incumbent.dual ≤ s.incumbent.tolerance)
      | .error _ _ => false) = true := by
    unfold Search.ofModel Propagator.new
    dsimp only
    rw [Handlers.sorted_builtIn counting_built.arranged.builtIn]
    decide +kernel
  cases hrun : run erring (.ofModel erring counting 0) with
  | error e s =>
    rw [hrun] at hfound
    cases hfound
  | ok out s =>
    rw [hrun] at hfound
    refine ⟨hvalid, out, s, ?_, hrun, of_decide_eq_true hfound⟩
    unfold Solver.solve
    rw [hvalid, hrun]

end Search

end BranchAndCut

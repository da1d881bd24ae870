import BranchAndCut.Proofs.Branching.Partition
import BranchAndCut.Proofs.Constraint.Requests
import BranchAndCut.Proofs.Model.Assembly
import BranchAndCut.Proofs.Solve.Acceptance
import BranchAndCut.Proofs.Solve.Processing
import BranchAndCut.Proofs.Solve.Splitting
import BranchAndCut.Proofs.Tree.Depth

/-! # The way down

Every node of the tree can be entered from the store of the search, by a replay of what is
recorded on its path, and each of them has room for as many branchings as the variables
leave. Propagation and branching keep it so: what is found at a node is recorded there, and
a split is taken from the width that is left. -/

namespace BranchAndCut

open Domains

/-! ## What is split -/

namespace Problem

/-- The variables that may be split. -/
def splittable {K : Type} [Scalar K] (p : Problem K) : Finset VarId :=
  (Finset.range p.numVars).filter fun v => (p.var v).type.isBranchable = true

/-- The sum of the widths of the variables that may be split. -/
def spread [Rooted ℚ] (p : Problem (Exact ℚ)) : ℚ :=
  ∑ v ∈ p.splittable, ((p.var v).upper.toField - (p.var v).lower.toField)

end Problem

namespace Search

section

variable {K σ : Type} [Scalar K] {sv : Solver K σ} {p : Problem K} {ε : K} {s t : Search K σ}

/-- Only variables are split, only those that the problem had, and with its tolerance. -/
structure Plain (p : Problem K) (ε : K) (s : Search K σ) : Prop where
  builtIn : s.handlers.custom = #[]
  sets : s.handlers.sos1.conss = #[]
  partitioned : s.problem.Partitioned
  branchable : ∀ v ∈ s.problem.branchable, v ∈ p.splittable
  intTol : s.brancher.intTol = ε

/-- All operations keep to that where no column is priced. -/
theorem evolves_plain (hpricers : sv.plugins.pricers = []) : Evolves sv fun s t : Search K σ => Plain p ε s → Plain p ε t where
  clerical {s t} h hs := by
    have hhandlers : t.handlers = s.handlers := h.part Search.handlers fun _ _ _ _ _ => rfl
    have hproblem : t.problem = s.problem := h.part Search.problem fun _ _ _ _ _ => rfl
    have hintTol : t.brancher.intTol = s.brancher.intTol := by
      unfold Clerical at h
      rw [h]
    exact ⟨hhandlers ▸ hs.builtIn, hhandlers ▸ hs.sets, hproblem ▸ hs.partitioned, hproblem ▸ hs.branchable, hintTol.trans hs.intTol⟩
  trans h h' := h' ∘ h
  restore _ hs := ⟨hs.builtIn, hs.sets, hs.partitioned, hs.branchable, hs.intTol⟩
  switchPath _ _ hs := ⟨hs.builtIn, hs.sets, hs.partitioned, hs.branchable, hs.intTol⟩
  propagate s := by
    unfold Ensures
    split <;> exact fun hs => ⟨hs.builtIn, hs.sets, hs.partitioned, hs.branchable, hs.intTol⟩
  updateActivity _ _ hs := ⟨hs.builtIn, hs.sets, hs.partitioned, hs.branchable, hs.intTol⟩
  separateInactive _ _ _ hs := ⟨hs.builtIn, hs.sets, hs.partitioned, hs.branchable, hs.intTol⟩
  addCut _ _ hs := ⟨hs.builtIn, hs.sets, hs.partitioned, hs.branchable, hs.intTol⟩
  addRow _ _ _ hs := ⟨hs.builtIn, hs.sets, hs.partitioned, hs.branchable, hs.intTol⟩
  register _ hs := ⟨hs.builtIn, hs.sets, hs.partitioned, hs.branchable, hs.intTol⟩
  lockCons _ _ _ hs := ⟨hs.builtIn, hs.sets, hs.partitioned, hs.branchable, hs.intTol⟩
  addVar hne := absurd hpricers hne
  addCoefficient hne := absurd hpricers hne
  releaseNode _ _ hs := ⟨hs.builtIn, hs.sets, hs.partitioned, hs.branchable, hs.intTol⟩
  delete s h c hs := by
    refine ⟨(s.handlers.delete_custom s.world h c).trans hs.builtIn, ?_, hs.partitioned, hs.branchable, hs.intTol⟩
    refine Eq.trans (congrArg Sos1Family.conss ?_) hs.sets
    unfold Handlers.delete
    dsimp only
    split <;> rfl

/-- Taking fixed variables out of their groups. -/
theorem Plain.compactFixed (h : Plain p ε s) {fixed : List VarId} :
    Plain p ε { s with problem := fixed.foldl Problem.compact s.problem } := by
  obtain ⟨hpartitioned, hmem⟩ := h.partitioned.compactAll fixed
  refine ⟨h.builtIn, h.sets, hpartitioned, fun v hv => h.branchable v ?_, h.intTol⟩
  rw [hpartitioned.branchable_eq, List.mem_append, Array.mem_toList_iff, Array.mem_toList_iff] at hv
  rw [h.partitioned.branchable_eq, List.mem_append, Array.mem_toList_iff, Array.mem_toList_iff]
  exact hv.imp (fun hv => ((hmem v _).mp hv).1) fun hv => ((hmem v _).mp hv).1

/-- **Entering a node** moves the store to it. -/
theorem ensures_enterNode (path : List NodeId) (s : Search K σ) : Ensures (enterNode sv path) s
    (fun feasible t => feasible = (s.domains.restore path s.tree.delta).1 ∧
      t.domains = (s.domains.restore path s.tree.delta).2) fun _ _ => True := by
  refine .bind (.modifyGet (.bind (.modifyGet (.bind_mono ((syncRows_clerical _ _).mono (fun _ _ h => h)
    fun _ _ _ => trivial) fun _ t ht => .bind (.modify (.pure ⟨rfl, ?_⟩))))))
  exact ht.part Search.domains fun _ _ _ _ _ => rfl

/-- What an accepted solution does to the tree. -/
theorem Busy.report_tree [IsTrans K (· < ·)] {id : NodeId} (h : s.Busy id) (x : Array K) : Ensures (Search.report x) s
    (fun _ t => ∃ tree incumbent, t = { s with tree, incumbent } ∧ SearchTree.Trims s.tree tree ∧
      SearchTree.Thins s.tree tree) fun _ _ => False := by
  unfold Search.report
  refine .bind (.get ?_)
  split
  · exact .pure ⟨s.tree, s.incumbent, rfl, SearchTree.trims_of_nodes rfl rfl rfl, fun {n node} hn => ⟨node, hn, rfl, rfl⟩⟩
  · next incumbent hoffer =>
    have hqueue : Queue.Wf { s.tree.queue with hasIncumbent := true } :=
      ⟨h.tree.queue.byBound, h.tree.queue.byDepth, h.tree.queue.byEstimate⟩
    have hwf : (s.tree.setHasIncumbent true).Wf fun _ => False :=
      h.tree.withQueue hqueue (fun hm => hm) (fun he _ => he) fun _ hout => hout
    obtain ⟨count, v, hret, hv, hcloses⟩ := SearchTree.pruneDominated_spec hwf incumbent.isPrunable
    have hdepth := (SearchTree.pruneDominated_sameDepth _ _).returns hret
    have hset : SearchTree.Trims s.tree (s.tree.setHasIncumbent true) := SearchTree.trims_of_nodes rfl rfl rfl
    exact .bind (.set (.bind (.onPart (.of_returns hret (.pure
      ⟨v, incumbent, rfl, hset.trans (hcloses.trims hwf hv hdepth), hcloses.thins⟩)))))

end

/-! ## Stores from which the nodes can be entered -/

section

variable {σ : Type} [Rooted ℚ] {sv : Solver (Exact ℚ) σ} {p : Problem (Exact ℚ)} {s t : Search (Exact ℚ) σ} {id : NodeId}
  {replayed : Nat}

/-- Stores from which the nodes of a tree can be entered, with the changes that are recorded
there. -/
def Open (sv : Solver (Exact ℚ) σ) (p : Problem (Exact ℚ)) (tree : SearchTree (Exact ℚ))
    (delta : NodeId → List (BoundChange (Exact ℚ))) (d : Domains (Exact ℚ)) : Prop :=
  Levels (Passable tree.IsPath delta sv.settings.feasTol p.RoundsAt (Roomy p.splittable p.spread)) d

/-- Variables are split only, all paths start at the root, and no node lies too deep. -/
structure Grounded (sv : Solver (Exact ℚ) σ) (p : Problem (Exact ℚ)) (s : Search (Exact ℚ) σ) : Prop where
  plain : Plain p sv.settings.intFeasTol s
  shallow : s.tree.Shallow ⌊p.spread⌋₊
  headed : ∀ ns, s.tree.IsPath ns → ns.head? = some 0

/-- The search before a node is entered, or after it was closed, kept or split. -/
structure Between (sv : Solver (Exact ℚ) σ) (p : Problem (Exact ℚ)) (s : Search (Exact ℚ) σ) : Prop
    extends Grounded sv p s where
  ahead : Open sv p s.tree s.tree.delta s.domains
  placed : s.domains.frames ≠ [] → s.domains.path.head? = some 0
  start : s.domains.frames = [] → s.domains.offPath = s.domains

/-- The search at a node. All but the first changes there are still to be recorded. -/
structure Inside (sv : Solver (Exact ℚ) σ) (p : Problem (Exact ℚ)) (id : NodeId) (replayed : Nat)
    (s : Search (Exact ℚ) σ) : Prop extends Grounded sv p s where
  busy : s.Busy id
  leads : s.tree.Leads s.domains.path id
  ahead : Open sv p s.tree (appended s.tree.delta id (s.domains.focusDelta.drop replayed)) s.domains
  replayed : replayed ≤ s.domains.focusDelta.length

theorem Grounded.transfer (h : Grounded sv p s) (hplain : Plain p sv.settings.intFeasTol t)
    (htree : SearchTree.Trims s.tree t.tree) : Grounded sv p t :=
  ⟨hplain, h.shallow.trims htree, fun ns hns => h.headed ns (htree.isPath hns)⟩

theorem Inside.ends (h : Inside sv p id replayed s) : Ends s.tree.IsPath s.domains id := by
  obtain ⟨node, hn, hsolving⟩ := h.busy.solving
  have hleaf : ∀ {x child}, s.tree.node? x = some child → child.parent ≠ some id := fun hx hparent => by
    obtain ⟨parent, hp, hbranched, -⟩ := h.busy.tree.parent hx hparent
    obtain rfl := Option.some.inj (hn.symm.trans hp)
    rw [hsolving] at hbranched
    cases hbranched
  obtain ⟨hfocus, hleaf⟩ := h.leads.leaf hleaf
  exact ⟨hfocus, ⟨id, h.leads⟩, fun _ _ hpath hne => hpath.of_append hne, hleaf⟩

/-- **What leaves the store alone**, and takes nodes from the tree at most. -/
theorem Inside.transfer (h : Inside sv p id replayed s) (hplain : Plain p sv.settings.intFeasTol t)
    (htree : SearchTree.Trims s.tree t.tree) (hdomains : t.domains = s.domains) (hbusy : t.Busy id) {replayed' : Nat}
    (hreplayed : replayed' ≤ s.domains.focusDelta.length)
    (hdelta : ∀ ns, t.tree.IsPath ns → ∀ n ∈ ns, appended t.tree.delta id (s.domains.focusDelta.drop replayed') n =
      appended s.tree.delta id (s.domains.focusDelta.drop replayed) n) : Inside sv p id replayed' t := by
  obtain ⟨node, hn, -⟩ := hbusy.solving
  obtain ⟨path, -, hpath, -⟩ := SearchTree.pathTo_leads hbusy.tree hn
  obtain rfl := h.leads.unique (htree.leads hpath)
  refine ⟨h.toGrounded.transfer hplain htree, hbusy, ?_, ?_, ?_⟩
  · rw [hdomains]
    exact hpath
  · rw [hdomains]
    exact levels_fewer h.ahead fun ns hns => ⟨htree.isPath hns, hdelta ns hns⟩
  · rw [hdomains]
    exact hreplayed

/-- What leaves the tree alone as well. -/
theorem Inside.steady (h : Inside sv p id replayed s) (hplain : Plain p sv.settings.intFeasTol t) (hst : s.Steady t)
    (hdomains : t.domains = s.domains) : Inside sv p id replayed t := by
  have htree := hst.tree
  refine h.transfer hplain ?_ hdomains (h.busy.steady hst) h.replayed fun ns _ n _ => by rw [htree]
  rw [htree]
  exact SearchTree.trims_of_nodes rfl rfl rfl

/-! ## The rounds -/

section

variable (hpricers : sv.plugins.pricers = []) (hpos : 0 < sv.settings.feasTol) (hhalf : sv.settings.feasTol < 0.5)

include hpos hhalf

/-- **Propagation** at a node. -/
theorem Inside.moves (h : Inside sv p id replayed s) {e : Domains (Exact ℚ)} (he : s.domains.Moves e) (w : σ) :
    Inside sv p id replayed { s with domains := e, world := w } := by
  obtain ⟨hlevels, hends, hreplayed⟩ := levels_moves hpos hhalf Roomy.collapses
    (fun hd hroom happlied => hroom.record hpos hhalf hd happlied _) h.ahead h.ends h.replayed he
  have hpath : s.domains.path = e.path := hends.leaf _ h.ends.mem h.leads.mem
  have hleads := h.leads
  rw [hpath] at hleads
  exact ⟨⟨⟨h.plain.builtIn, h.plain.sets, h.plain.partitioned, h.plain.branchable, h.plain.intTol⟩, h.shallow, h.headed⟩,
    h.busy.steady ⟨rfl, rfl, .refl _⟩, hleads, hlevels, hreplayed⟩

include hpricers

/-- **The rounds** of a node stay there. -/
theorem cycles_inside : Cycles sv fun s t : Search (Exact ℚ) σ => Inside sv p id replayed s → Inside sv p id replayed t := by
  have hplain : Evolves sv fun s t : Search (Exact ℚ) σ =>
      Plain p sv.settings.intFeasTol s → Plain p sv.settings.intFeasTol t := evolves_plain hpricers
  exact {
    clerical := fun h hs => hs.steady (hplain.clerical h hs.plain) h.steady (h.part Search.domains fun _ _ _ _ _ => rfl)
    trans := fun h h' => h' ∘ h
    separateInactive := fun s x e hs => hs.steady (hplain.separateInactive s x e hs.plain) ⟨rfl, rfl, .refl _⟩ rfl
    addCut := fun s cut hs => hs.steady (hplain.addCut s cut hs.plain) ⟨rfl, rfl, .refl _⟩ rfl
    addRow := fun s name row hs => hs.steady (hplain.addRow s name row hs.plain) ⟨rfl, rfl, .refl _⟩ rfl
    register := fun hadd hs => hs.steady (hplain.register hadd hs.plain) ⟨rfl, rfl, .refl _⟩ rfl
    lockCons := fun s h locks hs => hs.steady (hplain.lockCons s h locks hs.plain) ⟨rfl, rfl, .refl _⟩ rfl
    propagate := fun s => by
      by_cases hs : s.handlers.custom = #[]
      · have hnone : ∀ handler ∈ s.handlers.custom, handler.Requests := by
          rw [hs]
          exact fun _ h => absurd h (Array.not_mem_empty _)
        exact (Propagator.run_moves hnone s.propagator s.registry sv.steps s.domains s.world).mono
          (fun _ t ht hs => hs.moves hpos hhalf ht t.2) fun _ t ht hs => hs.moves hpos hhalf ht t.2
      · unfold Ensures
        split <;> exact fun h => absurd h.plain.builtIn hs
    updateActivity := fun s duals hs => hs.steady (hplain.updateActivity s duals hs.plain) ⟨rfl, rfl, .refl _⟩ rfl
    addVar := fun hne => absurd hpricers hne
    addCoefficient := fun hne => absurd hpricers hne }

omit hpricers hpos hhalf in
/-- The solutions of the oracle are within the bounds of the variables. -/
theorem Inside.confines (h : Inside sv p id replayed s) {A : Answering sv} (hA : A.Bounding) {x : Array (Exact ℚ)}
    (hx : A.Within s.domains.lower s.domains.upper x) : s.domains.Confines p.splittable x := fun v hv => by
  obtain ⟨hlt, htype⟩ := Finset.mem_filter.mp hv
  have hrounds : p.RoundsAt v := ⟨Finset.mem_range.mp hlt, VarType.isIntegral_of_isBranchable htype⟩
  exact hA _ _ _ hx v (h.ahead.top.sound.rounded.held v hrounds).2.2.1

/-- **The rounds** of a node end with solutions within the bounds. -/
theorem Inside.runRounds {A : Answering sv} (hA : A.Bounding) (h : Inside sv p id replayed s)
    (node : Node (Exact ℚ)) (depth : Nat) : Ensures (runRounds sv node depth) s
      (fun r t => Inside sv p id replayed t ∧ (r.1 = .fractional → ∀ lp ∈ r.2.2, t.domains.Confines p.splittable lp.x))
      fun _ t => t.tree.Shallow ⌊p.spread⌋₊ := by
  have hcycles : Cycles sv fun s t : Search (Exact ℚ) σ => Inside sv p id replayed s → Inside sv p id replayed t :=
    cycles_inside hpricers hpos hhalf
  refine (Cycles.ensures_runRounds (hcycles.answering A) fun f hf _ _ _ _ => hf ▸ h).mono ?_ ?_
  · rintro r _ ⟨f, rfl, hlp, ⟨hf, -, hfractional⟩, -⟩
    refine ⟨hf, fun hr lp hmem => ?_⟩
    obtain ⟨lp', hlp', hwithin⟩ := hfractional hr
    obtain rfl : lp = lp' := Option.some.inj (hmem.symm.trans (hlp.symm.trans hlp'))
    exact hf.confines hA hwithin
  · rintro e _ ⟨f, rfl, hf⟩
    exact hf.shallow

end

/-! ## What becomes of a node -/

/-- With all changes of the node in the tree. -/
abbrev Recorded (sv : Solver (Exact ℚ) σ) (p : Problem (Exact ℚ)) (id : NodeId) (s : Search (Exact ℚ) σ) : Prop :=
  Inside sv p id s.domains.focusDelta.length s

omit [Rooted ℚ] in
theorem recorded_delta (s : Search (Exact ℚ) σ) :
    appended s.tree.delta id (s.domains.focusDelta.drop s.domains.focusDelta.length) = s.tree.delta := by
  rw [List.drop_length, appended_nil]

theorem Between.transfer (h : Between sv p s) (hplain : Plain p sv.settings.intFeasTol t)
    (htree : SearchTree.Trims s.tree t.tree) (hthins : SearchTree.Thins s.tree t.tree) (hdomains : t.domains = s.domains) :
    Between sv p t := by
  refine ⟨h.toGrounded.transfer hplain htree, ?_, hdomains ▸ h.placed, hdomains ▸ h.start⟩
  rw [hdomains]
  exact levels_fewer h.ahead fun ns hns => hthins.isPath hns

/-- The node is left. -/
theorem Inside.between (h : Inside sv p id replayed s) (hplain : Plain p sv.settings.intFeasTol t)
    (htree : SearchTree.Trims s.tree t.tree) (hdomains : t.domains = s.domains)
    (hdelta : ∀ ns, t.tree.IsPath ns → ∀ n ∈ ns,
      t.tree.delta n = appended s.tree.delta id (s.domains.focusDelta.drop replayed) n) : Between sv p t := by
  refine ⟨h.toGrounded.transfer hplain htree, ?_, fun _ => ?_, fun hnil => ?_⟩
  · rw [hdomains]
    exact levels_fewer h.ahead fun ns hns => ⟨htree.isPath hns, hdelta ns hns⟩
  · rw [hdomains]
    exact h.headed _ ⟨id, h.leads⟩
  · rw [hdomains] at hnil
    exact absurd hnil h.ends.entered

/-- **Closing** a node. -/
theorem Inside.closeNode (h : Inside sv p id replayed s) (reason : PruneReason) : Ensures (closeNode id reason) s
    (fun _ t => t.Underway ∧ Between sv p t) fun _ t => t.tree.Shallow ⌊p.spread⌋₊ := by
  refine ((h.busy.closeNode reason).and (Ensures.bind (.modify ?_))).mono (fun _ _ h => h) fun _ _ => And.right
  obtain ⟨node, hn, hsolving⟩ := h.busy.solving
  obtain ⟨v, hret, hv, hcloses, -, hgone⟩ := SearchTree.close_spec h.busy.tree hn (.inr hsolving) h.busy.not_queued reason
  have hdepth := (SearchTree.close_sameDepth _ _ _).returns hret
  refine .bind (.onPart (.of_returns hret (.pure ?_)))
  refine h.between (t := { s with stats := _, tree := v }) ⟨h.plain.builtIn, h.plain.sets, h.plain.partitioned, h.plain.branchable, h.plain.intTol⟩
    (hcloses.trims h.busy.tree hv hdepth) rfl fun ns hns n hmem => ?_
  -- what had not been recorded is lost with the node
  have hthins : SearchTree.Thins s.tree v := hcloses.thins
  have hne : n ≠ id := by
    rintro rfl
    obtain ⟨m', hm'⟩ := hns
    obtain ⟨x, hx⟩ := hm'.alive n hmem
    rw [hgone] at hx
    cases hx
  rw [appended_of_ne hne]
  exact (hthins.isPath hns).2 n hmem

/-- **Keeping** a node that can be neither solved nor split. -/
theorem Inside.keepUnresolved (h : Recorded sv p id s) : Ensures (keepUnresolved id) s
    (fun _ t => t.Underway ∧ Between sv p t) fun _ t => t.tree.Shallow ⌊p.spread⌋₊ := by
  refine (h.busy.keepUnresolved.and ?_).mono (fun _ _ h => h) fun _ _ => And.right
  obtain ⟨node, hn, hsolving⟩ := h.busy.solving
  obtain ⟨hret, -⟩ := SearchTree.markUnresolved_spec h.busy.tree hn hsolving
  have hid := h.busy.tree.id hn
  generalize hmarked : ({ node with status := .unresolved } : Node (Exact ℚ)) = marked at hret
  have hplace : marked.id = id ∧ marked.parent = node.parent ∧ marked.depth = node.depth ∧ marked.changes = node.changes := by
    rw [← hmarked]
    exact ⟨hid, rfl, rfl, rfl⟩
  obtain ⟨hid, hparent, hdepth, hchanges⟩ := hplace
  have hset := SearchTree.trims_setNode hn hid hparent hdepth (by rw [hsolving]; rfl)
  have hthins : SearchTree.Thins s.tree { s.tree.setNode marked with unresolved := id :: s.tree.unresolved } :=
    SearchTree.thins_setNode hn hid hparent hchanges
  refine .bind (.onPart (.of_returns hret (.pure (h.between ?_ (hset.trans (SearchTree.trims_of_nodes rfl rfl rfl)) rfl
    fun ns hns n hmem => ?_))))
  · exact ⟨h.plain.builtIn, h.plain.sets, h.plain.partitioned, h.plain.branchable, h.plain.intTol⟩
  · rw [recorded_delta]
    exact (hthins.isPath hns).2 n hmem

/-- **Recording** what was found at a node, and its bound. -/
theorem Inside.recordChanges (h : Inside sv p id replayed s) (bound : Exact ℚ) :
    Ensures (onTree (SearchTree.recordChanges id (s.domains.focusDelta.drop replayed)))
      { s with tree := s.tree.modifyNode id (·.raiseBound bound) } (fun _ t => Recorded sv p id t ∧ t.domains = s.domains)
      fun _ t => t.tree.Shallow ⌊p.spread⌋₊ := by
  obtain ⟨node, hn, hsolving⟩ := h.busy.solving
  obtain ⟨hid, hparent, hdepth, hstatus, -, hchanges⟩ := node.raiseBound_place bound
  have hid := hid.trans (h.busy.tree.id hn)
  have hbusy := h.busy.raiseBound bound
  have hrecorded := hbusy.recordChanges (s.domains.focusDelta.drop replayed)
  have hraised : (s.tree.setNode (node.raiseBound bound)).node? id = some (node.raiseBound bound) := by
    rw [SearchTree.node?_setNode, if_pos hid]
  rw [SearchTree.modifyNode_eq hn] at hrecorded hbusy ⊢
  obtain ⟨hret, -⟩ := SearchTree.recordChanges_spec hbusy.tree hraised (hstatus.trans hsolving)
    (s.domains.focusDelta.drop replayed)
  generalize node.raiseBound bound = raised at *
  generalize hnew : ({ raised with changes := raised.changes ++ s.domains.focusDelta.drop replayed } :
    Node (Exact ℚ)) = new at hret
  have hreturns : Returns (onTree (SearchTree.recordChanges id (s.domains.focusDelta.drop replayed)))
      { s with tree := s.tree.setNode raised } ⟨⟩ { s with tree := (s.tree.setNode raised).setNode new } :=
    Returns.onPart_intro hret
  have hopen : node.status.isClosed = false := by rw [hsolving]; rfl
  have hplace : new.id = id ∧ new.parent = raised.parent ∧ new.depth = raised.depth ∧
      new.changes = node.changes ++ s.domains.focusDelta.drop replayed := by
    rw [← hnew, ← hchanges]
    exact ⟨hid, rfl, rfl, rfl⟩
  obtain ⟨hid', hparent', hdepth', hchanges'⟩ := hplace
  have htree : SearchTree.Trims s.tree ((s.tree.setNode raised).setNode new) :=
    (SearchTree.trims_setNode hn hid hparent hdepth hopen).trans
      (SearchTree.trims_setNode hraised hid' hparent' hdepth' (hstatus ▸ hopen))
  refine .of_returns hreturns ⟨?_, rfl⟩
  refine h.transfer (t := { s with tree := (s.tree.setNode raised).setNode new })
    ⟨h.plain.builtIn, h.plain.sets, h.plain.partitioned, h.plain.branchable, h.plain.intTol⟩ htree rfl (hrecorded.returns hreturns)
    (Nat.le_refl _) fun ns _ n _ => ?_
  rw [List.drop_length, appended_nil]
  have hread : ((s.tree.setNode raised).setNode new).node? n = if id = n then some new else s.tree.node? n := by
    rw [SearchTree.node?_setNode, SearchTree.node?_setNode, hid, hid']
    split <;> rfl
  by_cases hne : n = id
  · subst hne
    rw [if_pos rfl] at hread
    rw [appended_self, SearchTree.delta_eq hread, SearchTree.delta_eq hn, hchanges']
  · rw [if_neg fun heq => hne heq.symm] at hread
    rw [appended_of_ne hne]
    unfold SearchTree.delta
    rw [hread]

/-- **Offering** a solution. -/
theorem Inside.report (h : Recorded sv p id s) (x : Array (Exact ℚ)) : Ensures (Search.report x) s
    (fun _ t => Recorded sv p id t ∧ t.domains = s.domains) fun _ t => t.tree.Shallow ⌊p.spread⌋₊ := by
  refine ((h.busy.report x).and (h.busy.report_tree x)).mono ?_ fun _ _ hfail => hfail.2.elim
  rintro _ _ ⟨hbusy, tree, incumbent, rfl, htree, hthins⟩
  refine ⟨h.transfer (t := { s with tree, incumbent }) ⟨h.plain.builtIn, h.plain.sets, h.plain.partitioned, h.plain.branchable, h.plain.intTol⟩
    htree rfl hbusy (Nat.le_refl _) fun ns hns n hn => ?_, rfl⟩
  rw [recorded_delta, List.drop_length, appended_nil]
  exact (hthins.isPath hns).2 n hn

theorem Inside.sound (h : Inside sv p id replayed s) : Sound sv.settings.feasTol p.RoundsAt s.domains := h.ahead.top.sound

theorem Inside.roomy (h : Inside sv p id replayed s) : Roomy p.splittable p.spread s.domains := by
  have hpath : s.tree.IsPath (s.domains.path ++ []) := by
    rw [List.append_nil]
    exact ⟨id, h.leads⟩
  exact (h.ahead.top.ahead [] hpath).2

/-- Without families that split, a split leaves values on both sides. -/
theorem Inside.decides (h : Inside sv p id replayed s) (hpos : 0 < sv.settings.intFeasTol)
    (hhalf : sv.settings.intFeasTol < 0.5) {bound : Exact ℚ} {x : Array (Exact ℚ)}
    (hx : s.domains.Confines p.splittable x) {d : BranchingDecision (Exact ℚ)} (hd : s.Decides bound x d) :
    s.domains.Narrows p.splittable d := by
  rw [← h.plain.intTol] at hpos hhalf
  cases hd with
  | value hc => exact Brancher.narrows_dichotomy h.sound h.roomy h.plain.branchable hpos hx hc
  | halves hd =>
    refine Brancher.narrows_halve h.sound h.roomy h.plain.branchable hpos hhalf (fun y hy => ?_) hd
    exact Option.some.inj hy ▸ hx
  | @family w family o ho hmany =>
    unfold Handlers.branchings at ho
    split at ho
    · obtain ⟨c, -, hsplit⟩ := List.mem_filterMap.mp ho
      unfold Sos1Family.members at hsplit
      rw [h.plain.sets] at hsplit
      cases hsplit
    · next handler hwhich =>
      have hwhich' := Handlers.which_of_builtIn s.handlers h.plain.builtIn family
      simp [hwhich] at hwhich'
    · cases ho

section

variable (hpos : 0 < sv.settings.feasTol) (hhalf : sv.settings.feasTol < 0.5)

include hpos hhalf

/-- **Splitting** a node. -/
theorem Inside.split (h : Recorded sv p id s) {d : BranchingDecision (Exact ℚ)} (hd : s.domains.Narrows p.splittable d)
    (objective : Exact ℚ) (basis : Option SavedBasis) : Ensures (Search.split id d objective basis) s
      (fun _ t => t.Underway ∧ Between sv p t) fun _ t => t.tree.Shallow ⌊p.spread⌋₊ := by
  refine ((h.busy.split d objective basis).and ?_).mono (fun _ _ h => h) fun _ _ => And.right
  obtain ⟨htwo, hcuts⟩ := hd
  have hmany : 2 ≤ d.children.length := Nat.le_of_eq htwo.symm
  obtain ⟨node, hn, hsolving⟩ := h.busy.solving
  obtain ⟨v, hret, hsplits, -⟩ := SearchTree.pushChildren_spec h.busy.tree hn hmany objective basis
  refine .bind (.onPart (.of_returns hret (.bind (.modify (.pure ?_)))))
  have hopen : node.status.isClosed = false := by rw [hsolving]; rfl
  have hpaths : ∀ ns, v.IsPath ns → (s.tree.IsPath ns ∧ ∀ m ∈ ns, v.delta m = s.tree.delta m) ∨
      ∃ m, ns = s.domains.path ++ [m] ∧
        ∃ spec, SearchTree.numbered s.tree.nextId d.children m spec ∧ v.delta m = spec.changes := by
    intro ns hns
    rcases hsplits.isPath h.busy.tree hn h.leads hns with hold | ⟨m, spec, hm, hspec⟩
    · exact .inl hold
    · exact .inr ⟨m, hm, spec, hspec⟩
  have hhead := h.headed _ ⟨id, h.leads⟩
  have hahead := h.ahead
  rw [recorded_delta] at hahead
  -- the store of a child is one node longer than the path, and there is room for it
  have hdeep : node.depth + 1 ≤ ⌊p.spread⌋₊ := by
    obtain ⟨child, hchild⟩ := List.exists_mem_of_length_pos (Nat.lt_of_lt_of_le Nat.zero_lt_two hmany)
    obtain ⟨c, -, hc⟩ := hcuts child hchild
    have hlength := (h.roomy.branch hpos hhalf h.sound hc id).2.length_le ((h.sound.push id).replay hpos hhalf [c])
    have hframes : ((s.domains.push id).replay [c]).2.frames.length = s.domains.frames.length + 1 := by
      simpa [Domains.push] using congrArg List.length (replay_nodes (d := s.domains.push id) [c])
    obtain ⟨path, -, hpath, hdepth⟩ := SearchTree.pathTo_leads h.busy.tree hn
    rw [h.leads.unique hpath] at hdepth
    have hpathLength : s.domains.frames.length = node.depth + 1 := by simpa [Domains.path] using hdepth
    rw [hframes, hpathLength] at hlength
    refine Nat.le_floor ?_
    push_cast at hlength ⊢
    linarith
  refine ⟨⟨⟨h.plain.builtIn, h.plain.sets, h.plain.partitioned, h.plain.branchable, h.plain.intTol⟩, ?_, fun ns hns => ?_⟩, ?_,
    fun _ => hhead, fun hnil => absurd hnil h.ends.entered⟩
  · exact h.shallow.splits h.busy.tree hsplits hn hopen htwo
      (SearchTree.pushChildren_maxDepth hn hmany objective basis hret) hdeep
  · rcases hpaths ns hns with ⟨hold, -⟩ | ⟨m, rfl, -⟩
    · exact h.headed ns hold
    · rw [List.head?_append, hhead]
      rfl
  · refine levels_split hpos hhalf Roomy.collapses hahead h.ends hpaths (fun m hm => ?_)
      fun {X} hX hcollapses m hchild => ?_
    · obtain ⟨x, hx⟩ := h.leads.alive m hm
      exact hsplits.delta_eq h.busy.tree hn hx
    · obtain ⟨spec, hspec, hdelta⟩ := hchild
      obtain ⟨c, hchanges, hc⟩ := hcuts spec (List.mem_of_getElem? hspec.2)
      rw [hdelta, hchanges]
      exact (Roomy.collapses hcollapses h.roomy).branch hpos hhalf hX (hc.collapses hcollapses h.roomy) m

variable (hpricers : sv.plugins.pricers = [])

include hpricers

/-- **Entering** a node succeeds. -/
theorem Between.enterNode (h : Between sv p s) (hbusy : s.Busy id) {path : List NodeId}
    (hpath : s.tree.pathTo id = .ok path) : Ensures (Search.enterNode sv path) s
      (fun feasible t => feasible = true ∧ Recorded sv p id t) fun _ t => t.tree.Shallow ⌊p.spread⌋₊ := by
  obtain ⟨node, hn, -⟩ := hbusy.solving
  obtain ⟨path', hpath', hleads, -⟩ := SearchTree.pathTo_leads hbusy.tree hn
  cases hpath.symm.trans hpath'
  obtain ⟨hfeasible, hahead⟩ := levels_restore_path hpos hhalf Roomy.collapses h.ahead ⟨id, hleads⟩ h.start
    fun hne => commonLength_pos (h.placed hne) (h.headed _ ⟨id, hleads⟩)
  have hplain : Evolves sv fun s t : Search (Exact ℚ) σ =>
      Plain p sv.settings.intFeasTol s → Plain p sv.settings.intFeasTol t := evolves_plain hpricers
  refine (((evolves_steady.enterNode hpath).and (hplain.enterNode hpath)).and (ensures_enterNode path s)).mono ?_ ?_
  · rintro feasible t ⟨⟨hst, ht⟩, hanswer, hdomains⟩
    refine ⟨hanswer.trans hfeasible, ?_, hbusy.steady hst, ?_, ?_, Nat.le_refl _⟩
    · refine h.toGrounded.transfer (ht h.plain) ?_
      rw [hst.tree]
      exact SearchTree.trims_of_nodes rfl rfl rfl
    · rw [hdomains, restore_path, hst.tree]
      exact hleads
    · rw [recorded_delta, hst.tree, hdomains]
      exact hahead
  · rintro e t ⟨⟨hst, -⟩, -⟩
    rw [hst.tree]
    exact h.shallow

/-- What is known of the search at the stages of a node. -/
def stages (sv : Solver (Exact ℚ) σ) (p : Problem (Exact ℚ)) (id : NodeId) : Stages (Exact ℚ) σ where
  waiting s := s.Busy id ∧ Between sv p s
  entered _ s := Recorded sv p id s
  alive _ replayed s := Inside sv p id replayed s
  ended replayed o _ lp s := Inside sv p id replayed s ∧
    (o = .fractional → ∀ r ∈ lp, s.domains.Confines p.splittable r.x)
  recorded o _ lp s := Recorded sv p id s ∧ (o = .fractional → ∀ r ∈ lp, s.domains.Confines p.splittable r.x)
  refuted s := ∃ replayed, Inside sv p id replayed s
  chosen d s := Recorded sv p id s ∧ s.domains.Narrows p.splittable d
  done _ s := s.Underway ∧ Between sv p s
  fail _ s := s.tree.Shallow ⌊p.spread⌋₊

/-- **Every operation** leads from its stage to the next. -/
theorem contract_stages {A : Answering sv} (hA : A.Bounding) (hint : 0 < sv.settings.intFeasTol)
    (hintHalf : sv.settings.intFeasTol < 0.5) : Contract (stages sv p id) sv id := by
  have hplain : Evolves sv fun s t : Search (Exact ℚ) σ =>
      Plain p sv.settings.intFeasTol s → Plain p sv.settings.intFeasTol t := evolves_plain hpricers
  have hclerical : ∀ {s t : Search (Exact ℚ) σ} {replayed}, Inside sv p id replayed s → s.Clerical t →
      Inside sv p id replayed t ∧ t.domains = s.domains := fun h ht =>
    have hdomains := ht.part Search.domains fun _ _ _ _ _ => rfl
    ⟨h.steady (hplain.clerical ht h.plain) ht.steady hdomains, hdomains⟩
  have hrecorded : ∀ {s t : Search (Exact ℚ) σ} {o b lp}, (stages sv p id).recorded o b lp s → s.Clerical t →
      (stages sv p id).recorded o b lp t := fun {s t o b lp} h ht => by
    obtain ⟨hrecorded, hconfines⟩ := h
    obtain ⟨ht, hdomains⟩ := hclerical hrecorded ht
    refine ⟨?_, ?_⟩
    · unfold Recorded
      rw [hdomains]
      exact ht
    · rw [hdomains]
      exact hconfines
  exact {
    waiting_fails := fun h => h.2.shallow
    alive_fails := fun h => h.shallow
    recorded_fails := fun h => h.1.shallow
    enter := fun h hpath => (h.2.enterNode hpos hhalf hpricers h.1 hpath).mono
      (fun _ _ ⟨hfeasible, ht⟩ => by rw [if_pos hfeasible]; exact ht) fun _ _ h => h
    propagate := fun {path s} h => by
      have hcycles : Cycles sv fun s' t : Search (Exact ℚ) σ => Inside sv p id s.domains.focusDelta.length s' →
        Inside sv p id s.domains.focusDelta.length t := cycles_inside hpricers hpos hhalf
      refine (hcycles.propagate'' s).mono (fun alive t ht => ?_) fun _ t ht => (ht h).shallow
      split
      · exact ht h
      · exact ⟨_, ht h⟩
    compact := fun h => .modify (h.steady h.plain.compactFixed ⟨rfl, rfl, .compactAll _ _⟩ rfl)
    rounds := fun h _ => ((warmStart_clerical _ _).mono (fun _ _ ht =>
      (hclerical h ht).1.runRounds hpricers hpos hhalf hA ..) fun _ _ ht => (hclerical h ht).1.shallow)
    record := fun h => (h.1.recordChanges _).mono (fun _ _ ⟨ht, hdomains⟩ => ⟨ht, hdomains ▸ h.2⟩) fun _ _ h => h
    note := hrecorded
    ask := fun h heur _ => (askHeuristic_clerical _ heur _).mono (fun _ _ => hrecorded h)
      fun _ _ ht => (hrecorded h ht).1.shallow
    report := fun x h => (h.1.report x).mono (fun _ _ ⟨ht, hdomains⟩ => ⟨ht, hdomains ▸ h.2⟩) fun _ _ h => h
    solved := fun h => (h.1.report _).mono (fun _ _ ht => ⟨_, ht.1⟩) fun _ _ h => h
    unbounded := fun h => ⟨h.1.busy.toUnderway, h.1.between h.1.plain (SearchTree.trims_of_nodes rfl rfl rfl) rfl
      fun _ _ _ _ => by rw [recorded_delta]⟩
    refutes := fun h _ => ⟨_, h.1⟩
    prunable := fun h _ => ⟨_, h.1⟩
    decide := fun {b lp s} h => by
      refine ((decide?_clerical b lp.x s).and (ensures_decide? s b lp.x)).mono (fun choice t ⟨ht, hd⟩ => ?_)
        fun _ _ ht => (hrecorded h ht.1).1.shallow
      have hstage := hrecorded h ht
      refine ⟨hstage, fun d hmem => ⟨hstage.1, ?_⟩⟩
      rw [(hclerical h.1 ht).2]
      exact h.1.decides hint hintHalf (h.2 rfl lp rfl) (hd.2 d hmem)
    halve := fun h hd => ⟨h.1, Brancher.narrows_halve h.1.sound h.1.roomy h.1.plain.branchable
      (h.1.plain.intTol ▸ hint) (h.1.plain.intTol ▸ hintHalf) (fun y hy => by cases hy) hd⟩
    close := fun reason ⟨_, h⟩ => h.closeNode reason
    keep := fun h => h.1.keepUnresolved
    split := fun objective basis h => h.1.split hpos hhalf h.2 objective basis }

end

end

end Search

end BranchAndCut

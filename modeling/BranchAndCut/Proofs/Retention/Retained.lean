import BranchAndCut.Proofs.Model.Partitions
import BranchAndCut.Proofs.Retention.Honesty
import BranchAndCut.Proofs.Retention.Improvement
import BranchAndCut.Proofs.Solve.Bounds
import BranchAndCut.Proofs.Tree.Coverage

/-! # A point that the search retains

What is known of one feasible point between the operations of a search: it satisfies the
constraints wherever they apply, lies in the stored domains of all nodes that it follows, and
as long as it improves on the incumbent some node covers it. -/

namespace BranchAndCut.Search

variable [Rooted ℚ] {σ : Type} {x : Point} {q : Exact ℚ} {busy busy' : NodeId → Prop} {s t : Search (Exact ℚ) σ} {id : NodeId}
  {sv : Solver (Exact ℚ) σ}

/-- The value of a point. -/
abbrev valueAt (s : Search (Exact ℚ) σ) (x : Point) : Exact ℚ := s.problem.value x.vector

/-- A node covers the point, and if it is being processed it is one of the given ones. -/
def Covered (x : Point) (q : Exact ℚ) (busy : NodeId → Prop) (t : SearchTree (Exact ℚ)) : Prop :=
  ∃ n node, t.Covers x q n node ∧ (node.status = .solving → busy n)

/-- **The search retains a point.** -/
structure Retains (x : Point) (q : Exact ℚ) (busy : NodeId → Prop) (s : Search (Exact ℚ) σ) : Prop where
  size : x.size = s.problem.numVars
  value : s.valueAt x = q
  finite : ∀ a ∈ s.problem.costs, Scalar.isFinite a = true
  minFrac : ∀ g ∈ s.gomory, 0 < g.minFrac
  partitioned : s.problem.Partitioned
  branchable : ∀ v ∈ s.problem.branchable, x.IsInt v
  implications : s.implications.Holds x
  proper : s.handlers.linear.Proper
  /-- A constraint holds at the point, unless it belongs to a node that the point does not follow. -/
  constraints : ∀ id < s.registry.size, s.registry.isDeleted id = false →
    (∀ n, (s.registry.record id).scope = .below n → s.tree.Follows x n) →
    s.handlers.Meets (s.registry.handler id) (s.registry.index id) x
  /-- Constraints of nodes are rows that were added to the relaxation at once. -/
  scopes : ∀ id < s.registry.size, ∀ n, (s.registry.record id).scope = .below n → n < s.tree.nextId ∧
    s.registry.handler id = 0 ∧ (s.registry.isDeleted id = false →
      ∀ cons, s.handlers.linear.conss[s.registry.index id]? = some cons → cons.isLazy = false)
  store : Domains.Levels (Domains.Within (s.tree.Follows x) x) s.domains
  known : ∀ n ∈ s.domains.path, n < s.tree.nextId
  anchored : s.tree.Anchored x
  covered : s.incumbent.Improves (s.valueAt x) → Covered x (s.valueAt x) busy s.tree

/-- Only these parts matter. -/
theorem Retains.congr (h : s.Retains x q busy) (hproblem : t.problem = s.problem) (hhandlers : t.handlers = s.handlers)
    (hregistry : t.registry = s.registry) (himplications : t.implications = s.implications)
    (hdomains : t.domains = s.domains) (htree : t.tree = s.tree) (hincumbent : t.incumbent = s.incumbent)
    (hgomory : t.gomory = s.gomory) : t.Retains x q busy := by
  cases s
  cases t
  dsimp only at hproblem hhandlers hregistry himplications hdomains htree hincumbent hgomory
  subst hproblem hhandlers hregistry himplications hdomains htree hincumbent hgomory
  exact ⟨h.size, h.value, h.finite, h.minFrac, h.partitioned, h.branchable, h.implications, h.proper, h.constraints, h.scopes, h.store,
    h.known, h.anchored, h.covered⟩

theorem Retains.clerical (h : s.Retains x q busy) (ht : s.Clerical t) : t.Retains x q busy :=
  h.congr (ht.part Search.problem fun _ _ _ _ _ => rfl) (ht.part Search.handlers fun _ _ _ _ _ => rfl)
    (ht.part Search.registry fun _ _ _ _ _ => rfl) (ht.part Search.implications fun _ _ _ _ _ => rfl)
    (ht.part Search.domains fun _ _ _ _ _ => rfl) (ht.part Search.tree fun _ _ _ _ _ => rfl)
    (ht.part Search.incumbent fun _ _ _ _ _ => rfl) (ht.part Search.gomory fun _ _ _ _ _ => rfl)

theorem Retains.relaxes (h : s.Retains x q busy) (ht : s.Relaxes t) : t.Retains x q busy :=
  h.congr (ht.part Search.problem fun _ _ _ _ => rfl) (ht.part Search.handlers fun _ _ _ _ => rfl)
    (ht.part Search.registry fun _ _ _ _ => rfl) (ht.part Search.implications fun _ _ _ _ => rfl)
    (ht.part Search.domains fun _ _ _ _ => rfl) (ht.part Search.tree fun _ _ _ _ => rfl)
    (ht.part Search.incumbent fun _ _ _ _ => rfl) (ht.part Search.gomory fun _ _ _ _ => rfl)

theorem Retains.exists_value (h : s.Retains x q busy) (y : Point) : ∃ a : ℚ, s.valueAt y = .fin a :=
  Problem.exists_value h.finite y

/-! ## The tree changes -/

/-- **The tree changes** so that no one joins a node, and who improves is still covered. -/
theorem Retains.withTree (h : s.Retains x q busy) {out : NodeId → Prop} (hwf : s.tree.Wf out) {tree : SearchTree (Exact ℚ)}
    {incumbent : Incumbent (Exact ℚ)} (hgrows : SearchTree.Grows s.tree tree) (hanchored : tree.Anchored x)
    (hcovered : incumbent.Improves (s.valueAt x) → Covered x (s.valueAt x) busy' tree) :
    Retains x q busy' { s with tree, incumbent } := by
  refine ⟨h.size, h.value, h.finite, h.minFrac, h.partitioned, h.branchable, h.implications, h.proper, fun id hid hdeleted hfollows => ?_,
    fun id hid n hn => ?_, ?_, fun n hn => (h.known n hn).trans_le hgrows.nextId, hanchored, hcovered⟩
  · exact h.constraints id hid hdeleted fun n hn => (hfollows n hn).back hgrows hwf (h.scopes id hid n hn).1
  · exact ⟨(h.scopes id hid n hn).1.trans_le hgrows.nextId, (h.scopes id hid n hn).2⟩
  · refine Domains.levels_mono h.store fun f hf hfollows => hfollows.back hgrows hwf (h.known f.node ?_)
    unfold Domains.path
    exact List.mem_reverse.mpr (List.mem_map_of_mem hf)

/-- Nodes are closed, but none of those that cover the point while it improves. -/
theorem Retains.closes (h : s.Retains x q busy) {out out' : NodeId → Prop} (hwf : s.tree.Wf out) {tree : SearchTree (Exact ℚ)}
    (htree : tree.Wf out') {gone : NodeId → Prop} (hcloses : SearchTree.Closes s.tree tree gone)
    {incumbent : Incumbent (Exact ℚ)} (himproves : incumbent.Improves (s.valueAt x) → s.incumbent.Improves (s.valueAt x))
    (hgone : incumbent.Improves (s.valueAt x) → ∀ n node, s.tree.Covers x (s.valueAt x) n node → ¬ gone n) :
    Retains x q busy { s with tree, incumbent } := by
  refine h.withTree hwf hcloses.grows (hcloses.anchored h.anchored) fun hq => ?_
  obtain ⟨n, node, hcovers, hbusy⟩ := h.covered (himproves hq)
  obtain ⟨node', hcovers', hstatus⟩ := hcloses.covers htree hcovers (hgone hq n node hcovers)
  exact ⟨n, node', hcovers', hstatus ▸ hbusy⟩

/-! ## Constraints where they apply -/

/-- The point follows the nodes of the path. -/
def Here (x : Point) (s : Search (Exact ℚ) σ) : Prop := s.domains.Along (s.tree.Follows x)

/-- **Active constraints hold** at a point that follows the path. -/
theorem Retains.meets (h : s.Retains x q busy) (hwf : s.registry.Wf)
    (hpath : s.registry.path.map Prod.fst = s.domains.path.reverse) (hhere : s.Here x) {id : ConsId}
    (hid : s.registry.isActive id = true) : s.handlers.Meets (s.registry.handler id) (s.registry.index id) x := by
  have hlt := hwf.mirrors.lt_of_isActive hid
  refine h.constraints id hlt (hwf.isDeleted_eq_false hid) fun n hn => ?_
  rcases hwf.onPath hid with heverywhere | ⟨m, hm, hscope⟩
  · rw [heverywhere] at hn
    cases hn
  · rw [hn] at hscope
    cases hscope
    rw [hpath, List.mem_reverse] at hm
    exact Domains.along_iff.mp hhere n hm

theorem Retains.satisfies (h : s.Retains x q busy) (hwf : s.registry.Wf)
    (hpath : s.registry.path.map Prod.fst = s.domains.path.reverse) (hhere : s.Here x) :
    s.handlers.Satisfies s.registry x := by
  intro family c hc
  have hc' : c ∈ (s.registry.activeOf family).map s.registry.index := by
    rw [← hwf.mirrors.indices]
    exact Array.mem_toList_iff.mp hc
  obtain ⟨id, hid, rfl⟩ := Array.mem_map.mp hc'
  obtain ⟨hactive, rfl⟩ := hwf.mirrors.mem_activeOf.mp hid
  exact (h.meets hwf hpath hhere hactive).holds

/-- **Lazy constraints hold** wherever the point is, since none of them belongs to a node. -/
theorem Retains.lazy (h : s.Retains x q busy) (hwf : s.registry.Wf) {c : Nat} (hc : c ∈ s.registry.activeIndices 0)
    {cons : LinearConstraint (Exact ℚ)} (hcons : s.handlers.linear.conss[c]? = some cons) (hlazy : cons.isLazy = true) :
    cons.row.Holds x := by
  have hc' : c ∈ (s.registry.activeOf 0).map s.registry.index := by
    rw [← hwf.mirrors.indices]
    exact Array.mem_toList_iff.mp hc
  obtain ⟨id, hid, rfl⟩ := Array.mem_map.mp hc'
  obtain ⟨hactive, hzero⟩ := hwf.mirrors.mem_activeOf.mp hid
  have hlt := hwf.mirrors.lt_of_isActive hactive
  have hdeleted := hwf.isDeleted_eq_false hactive
  have hmeets := h.constraints id hlt hdeleted fun n hn => by
    rw [(h.scopes id hlt n hn).2.2 hdeleted cons hcons] at hlazy
    cases hlazy
  rw [hzero] at hmeets
  exact hmeets cons hcons

/-- Rows of the active constraints hold in the relaxation. -/
theorem Retains.meetsConstraints {F : Footing sv} (h : s.Retains x q busy) (hsynced : s.Synced F)
    (hpath : s.registry.path.map Prod.fst = s.domains.path.reverse) (hhere : s.Here x) {c : Contents (Exact ℚ)}
    (htracks : s.Tracks c []) : c.MeetsConstraints x := by
  intro id k row hrow
  rw [htracks.constraint] at hrow
  split at hrow
  · next hlisted =>
    obtain ⟨hactive, -⟩ := (hsynced.carries.lists id).mp hlisted
    have hmeets := h.meets hsynced.filed.registry hpath hhere hactive
    rw [rows_eq hsynced.carries.builtIn] at hrow
    split at hrow
    · next hlinear =>
      rw [hlinear] at hmeets
      unfold LinearFamily.initialRows at hrow
      split at hrow
      · next cons hcons =>
        split at hrow
        · cases hrow
        · obtain rfl := List.mem_singleton.mp (List.mem_of_getElem? hrow)
          exact hmeets cons hcons
      · cases hrow
    · cases hrow
  · cases hrow

/-! ## Propagation -/

omit [Rooted ℚ] in
/-- A path without a parent is that of the root. -/
theorem leads_short {tree : SearchTree (Exact ℚ)} {path : List NodeId} (h : tree.Leads path id) (hshort : path.length ≤ 1) :
    path = [id] ∧ ∃ node, tree.node? id = some node ∧ node.parent = none := by
  cases h with
  | root hn hparent => exact ⟨rfl, _, hn, hparent⟩
  | child hn hparent hpath =>
    rw [List.length_append, List.length_singleton] at hshort
    cases hpath with
    | root => simp at hshort
    | child => simp at hshort

/-- At the root every point follows the path. -/
theorem Retains.grounded (h : s.Retains x q busy) (hleads : s.tree.Leads s.domains.path id) :
    s.domains.Grounded (s.tree.Follows x) := by
  intro hlength
  have hshort : s.domains.path.length ≤ 1 := by
    unfold Domains.path
    rwa [List.length_reverse, List.length_map]
  obtain ⟨hpath, node, hn, hparent⟩ := leads_short hleads hshort
  refine Domains.along_iff.mpr fun n hmem => ?_
  rw [hpath] at hmem
  obtain rfl := List.mem_singleton.mp hmem
  exact h.anchored.follows hn hparent

variable (sv) in
/-- **Propagation** retains the point, and cuts the node off only if the point does not
follow it. -/
theorem Retains.propagate (h : s.Retains x q busy) (hb : s.handlers.custom = #[]) (hwf : s.registry.Wf)
    (hpath : s.registry.path.map Prod.fst = s.domains.path.reverse) (hleads : s.tree.Leads s.domains.path id) :
    Ensures (propagate sv) s (fun alive t => t.Retains x q busy ∧ t.domains.path = s.domains.path ∧
      (alive = false → ¬ s.Here x)) fun _ _ => True := by
  have htop := h.store.top
  have hP : Deduction.Candidates s.implications {y | y = x ∧ s.Here x} s.domains := {
    tol := htop.tol
    encloses := fun y hy => hy.1 ▸ htop.encloses hy.2
    globally := fun y hy v _ => hy.1 ▸ htop.globally v
    implications := fun y hy => hy.1 ▸ h.implications }
  have hsatisfies : ∀ y ∈ {y | y = x ∧ s.Here x}, s.handlers.Satisfies s.registry y := fun y hy =>
    hy.1 ▸ h.satisfies hwf hpath hy.2
  unfold Search.propagate
  refine .bind (.get (.bind (.onPart ((Propagator.run_keeps (p := s.propagator) (w := s.world) ⟨hb, h.proper⟩ hP
    hsatisfies sv.steps).mono ?_ fun _ _ _ => trivial))))
  rintro out ⟨d, w⟩ ⟨htightens, -, hcut⟩
  have hsame : d.path = s.domains.path := by
    unfold Domains.path
    rw [htightens.nodes]
  refine .bind (.modify (.pure ⟨⟨h.size, h.value, h.finite, h.minFrac, h.partitioned, h.branchable, h.implications, h.proper, h.constraints,
    h.scopes, Domains.levels_within_tightens h.store (h.grounded hleads) htightens, ?_, h.anchored, h.covered⟩, hsame, ?_⟩))
  · intro n hn
    exact h.known n (hsame ▸ hn)
  · intro hdead hhere
    have hempty := hcut (by simpa using hdead)
    have hmem : x ∈ ({y | y = x ∧ s.Here x} : Set Point) := ⟨rfl, hhere⟩
    rw [hempty] at hmem
    exact hmem

/-! ## Entering a node -/

theorem here_of_follows {path : List NodeId} (hpath : s.domains.path = path) (hleads : s.tree.Leads path id)
    (hfollows : s.tree.Follows x id) : s.Here x :=
  Domains.along_iff.mpr (hpath ▸ hleads.follows hfollows)

theorem follows_of_here {path : List NodeId} (hpath : s.domains.path = path) (hleads : s.tree.Leads path id)
    (hhere : s.Here x) : s.tree.Follows x id :=
  Domains.along_iff.mp hhere id (hpath ▸ hleads.mem)

/-- **Entering a node** retains the point; the changes on its path conflict only if the point
does not follow it. -/
theorem Retains.enterNode {F : Footing sv} (h : s.Retains x q busy) (hsynced : s.Synced F) {out : NodeId → Prop}
    (hwf : s.tree.Wf out) {path : List NodeId} (hleads : s.tree.Leads path id) :
    Ensures (enterNode sv path) s (fun feasible t => (t.Synced F ∧ t.Retains x q busy) ∧
      t.registry.path.map Prod.fst = path.reverse ∧ t.domains.path = path ∧ s.Steady t ∧
      (feasible = false → ¬ t.tree.Follows x id)) fun _ _ => True := by
  have hswitch := (Registry.switchPath_spec hsynced.filed.registry path).1
  have hrecord : ∀ id, (s.registry.switchPath path).2.record id = s.registry.record id := fun id => by
    unfold Registry.record
    rw [hswitch.records]
  have hhandler : ∀ id, (s.registry.switchPath path).2.handler id = s.registry.handler id := fun id =>
    congrArg ConsRecord.handler (hrecord id)
  have hindex : ∀ id, (s.registry.switchPath path).2.index id = s.registry.index id := fun id =>
    congrArg ConsRecord.index (hrecord id)
  have hdeleted : ∀ id, (s.registry.switchPath path).2.isDeleted id = s.registry.isDeleted id := fun id =>
    congrArg ConsRecord.deleted (hrecord id)
  have hsize : (s.registry.switchPath path).2.size = s.registry.size := congrArg Array.size hswitch.records
  have hdelta : ∀ n ∈ path, s.tree.Follows x n → ∀ c ∈ s.tree.delta n, c.Admits x := fun n _ hn => by
    obtain ⟨node, hnode⟩ := hn.alive
    rw [SearchTree.delta_eq hnode]
    exact hn.changes hnode
  have hroot : ∀ n, path.head? = some n → s.tree.Follows x n := fun n hn => by
    obtain ⟨root, rest, node, rfl, hnode, hparent⟩ := hleads.head
    obtain rfl := Option.some.inj hn
    exact h.anchored.follows hnode hparent
  obtain ⟨hstore, hfeasible⟩ := Domains.restore_within h.store hdelta hroot
  have hpath := Domains.restore_path s.domains path s.tree.delta
  have hmoved : Retains x q busy { s with
      domains := (s.domains.restore path s.tree.delta).2
      registry := (s.registry.switchPath path).2 } := by
    refine ⟨h.size, h.value, h.finite, h.minFrac, h.partitioned, h.branchable, h.implications, h.proper, fun id hid hnot hfollows => ?_,
      fun id hid n hn => ?_, hstore, fun n hn => ?_, h.anchored, h.covered⟩
    · dsimp only at hid hnot hfollows ⊢
      rw [hhandler, hindex]
      rw [hsize] at hid
      rw [hdeleted] at hnot
      rw [hrecord] at hfollows
      exact h.constraints id hid hnot hfollows
    · dsimp only at hid hn ⊢
      rw [hhandler, hindex, hdeleted]
      rw [hsize] at hid
      rw [hrecord] at hn
      exact h.scopes id hid n hn
    · dsimp only at hn
      rw [hpath] at hn
      obtain ⟨node, hnode⟩ := hleads.alive n hn
      exact hwf.fresh hnode
  refine (hsynced.enterNode path).mono (fun feasible t ht => ?_) fun _ _ _ => trivial
  obtain ⟨ht, htpath, hresult, hrelaxes⟩ := ht
  have hdomains : t.domains = (s.domains.restore path s.tree.delta).2 := hrelaxes.part Search.domains fun _ _ _ _ => rfl
  have htree : t.tree = s.tree := hrelaxes.part Search.tree fun _ _ _ _ => rfl
  refine ⟨⟨ht, hmoved.relaxes hrelaxes⟩, htpath, hdomains ▸ hpath, ⟨htree, ?_, ?_⟩, fun hconflict hfollows => ?_⟩
  · exact hrelaxes.part Search.incumbent fun _ _ _ _ => rfl
  · rw [show t.problem = s.problem from hrelaxes.part Search.problem fun _ _ _ _ => rfl]
    exact .refl _
  · rw [htree] at hfollows
    have halong : (s.domains.restore path s.tree.delta).2.Along (s.tree.Follows x) := by
      rw [Domains.along_iff, hpath]
      exact hleads.follows hfollows
    rw [hresult, hfeasible halong] at hconflict
    cases hconflict

/-! ## Constraints come and go -/

omit [Rooted ℚ] in
/-- A constraint of a family keeps its meaning while its row stays at its place. -/
theorem meets_linear [Rooted ℚ] {hs : Handlers (Exact ℚ) σ} {linear : LinearFamily (Exact ℚ)} {h : HandlerId} {c : Nat}
    (hsame : h = 0 → linear.conss[c]? = hs.linear.conss[c]?) :
    ({ hs with linear } : Handlers (Exact ℚ) σ).Meets h c x ↔ hs.Meets h c x := by
  match h with
  | 0 =>
    show (∀ cons, linear.conss[c]? = some cons → _) ↔ ∀ cons, hs.linear.conss[c]? = some cons → _
    rw [hsame rfl]
  | 1 => exact Iff.rfl
  | h + 2 =>
    simp only [Handlers.Meets, Handlers.which]
    cases hs.custom[h]? <;> exact Iff.rfl

/-- Taking fixed variables out of their groups. -/
theorem Retains.compactFixed (h : s.Retains x q busy) (fixed : List VarId) :
    Retains x q busy { s with problem := fixed.foldl Problem.compact s.problem } := by
  obtain ⟨hpartitioned, hmem⟩ := h.partitioned.compactAll fixed
  have hcosts := s.problem.compactAll_costs fixed
  have hvalue : (fixed.foldl Problem.compact s.problem).value x.vector = s.valueAt x := by
    rw [Problem.value_eq, hcosts, ← Problem.value_eq]
  refine ⟨?_, hvalue.trans h.value, hcosts ▸ h.finite, h.minFrac, hpartitioned, fun v hv => h.branchable v ?_, h.implications, h.proper, h.constraints,
    h.scopes, h.store, h.known, h.anchored, ?_⟩
  · exact h.size.trans (congrArg Array.size (s.problem.compactAll_vars fixed)).symm
  · dsimp only at hv
    rw [hpartitioned.branchable_eq, List.mem_append, Array.mem_toList_iff, Array.mem_toList_iff] at hv
    rw [h.partitioned.branchable_eq, List.mem_append, Array.mem_toList_iff, Array.mem_toList_iff]
    exact hv.imp (fun hv => ((hmem v _).mp hv).1) fun hv => ((hmem v _).mp hv).1
  · show s.incumbent.Improves ((fixed.foldl Problem.compact s.problem).value x.vector) →
      Covered x ((fixed.foldl Problem.compact s.problem).value x.vector) busy s.tree
    rw [hvalue]
    exact h.covered

/-- The linear constraints that are registered are stored. -/
def Stored (s : Search (Exact ℚ) σ) : Prop :=
  ∀ id < s.registry.size, s.registry.handler id = 0 → s.registry.index id < s.handlers.linear.conss.size

omit [Rooted ℚ] in
theorem Stored.withLocalCut [Rooted ℚ] (h : s.Stored) {cut : Cut (Exact ℚ)} {scope : Scope} {registry : Registry}
    (hgrown : Registry.Grown s.registry { handler := 0, index := s.handlers.linear.conss.size, scope } registry) :
    (s.withLocalCut cut registry).Stored := by
  have hsize : registry.size = s.registry.size + 1 :=
    (congrArg Array.size hgrown.records).trans (Array.size_push _)
  have hconss : (s.withLocalCut cut registry).handlers.linear.conss.size = s.handlers.linear.conss.size + 1 :=
    Array.size_push _
  intro c hc hzero
  change c < registry.size at hc
  change registry.handler c = 0 at hzero
  show registry.index c < _
  rw [hconss]
  rcases Nat.lt_succ_iff_lt_or_eq.mp (hsize ▸ hc) with hlt | rfl
  · rw [hgrown.handler_old hlt] at hzero
    rw [hgrown.index_old hlt]
    exact Nat.lt_succ_of_lt (h c hlt hzero)
  · rw [hgrown.index_new]
    exact Nat.lt_succ_self _

/-- **A local cut** of a node that holds for those who follow it. -/
theorem Retains.withLocalCut (h : s.Retains x q busy) (hstored : s.Stored) {cut : Cut (Exact ℚ)} {registry : Registry}
    (hgrown : Registry.Grown s.registry
      { handler := 0, index := s.handlers.linear.conss.size, scope := .below id } registry)
    (hid : id < s.tree.nextId) (hproper : cut.row.Proper) (hholds : s.tree.Follows x id → cut.row.Holds x) :
    (s.withLocalCut cut registry).Retains x q busy := by
  have hsize : registry.size = s.registry.size + 1 :=
    (congrArg Array.size hgrown.records).trans (Array.size_push _)
  have hold : ∀ c < s.handlers.linear.conss.size, (s.handlers.linear.addRow cut.name cut.row false).2.conss[c]? =
      s.handlers.linear.conss[c]? := fun c hc => Array.getElem?_push_lt hc |>.trans (Array.getElem?_eq_getElem hc).symm
  have hnew : (s.handlers.linear.addRow cut.name cut.row false).2.conss[s.handlers.linear.conss.size]? =
      some { name := cut.name, row := cut.row } := Array.getElem?_push_size
  refine ⟨h.size, h.value, h.finite, h.minFrac, h.partitioned, h.branchable, h.implications, fun cons hcons => ?_,
    fun c hc hdeleted hfollows => ?_, fun c hc n hn => ?_, h.store, h.known, h.anchored, h.covered⟩
  · rcases Array.mem_push.mp hcons with hcons | rfl
    · exact h.proper cons hcons
    · exact hproper
  · change c < registry.size at hc
    change registry.isDeleted c = false at hdeleted
    change ∀ n, (registry.record c).scope = .below n → s.tree.Follows x n at hfollows
    show Handlers.Meets { s.handlers with linear := (s.handlers.linear.addRow cut.name cut.row false).2 }
      (registry.handler c) (registry.index c) x
    rcases Nat.lt_succ_iff_lt_or_eq.mp (hsize ▸ hc) with hlt | rfl
    · unfold Registry.isDeleted at hdeleted
      rw [hgrown.record_old hlt] at hdeleted hfollows
      rw [hgrown.handler_old hlt, hgrown.index_old hlt,
        meets_linear fun hzero => hold _ (hstored c hlt hzero)]
      exact h.constraints c hlt hdeleted hfollows
    · rw [hgrown.index_new, show registry.handler s.registry.size = 0 from congrArg ConsRecord.handler hgrown.record_new]
      rintro cons hcons
      obtain rfl := Option.some.inj (hnew.symm.trans hcons)
      exact hholds (hfollows id (congrArg ConsRecord.scope hgrown.record_new))
  · change c < registry.size at hc
    change (registry.record c).scope = .below n at hn
    show n < s.tree.nextId ∧ registry.handler c = 0 ∧ (registry.isDeleted c = false → ∀ cons,
      (s.handlers.linear.addRow cut.name cut.row false).2.conss[registry.index c]? = some cons → cons.isLazy = false)
    rcases Nat.lt_succ_iff_lt_or_eq.mp (hsize ▸ hc) with hlt | rfl
    · rw [hgrown.record_old hlt] at hn
      obtain ⟨hn, hzero, hlazy⟩ := h.scopes c hlt n hn
      unfold Registry.isDeleted
      rw [hgrown.record_old hlt, hgrown.handler_old hlt, hgrown.index_old hlt, hold _ (hstored c hlt hzero)]
      exact ⟨hn, hzero, hlazy⟩
    · rw [hgrown.record_new] at hn
      cases hn
      refine ⟨hid, congrArg ConsRecord.handler hgrown.record_new, fun _ cons hcons => ?_⟩
      rw [hgrown.index_new, hnew] at hcons
      cases hcons
      rfl

/-- The list of the nodes that left the tree does not matter. -/
theorem follows_released {tree : SearchTree (Exact ℚ)} {n : NodeId} (h : tree.Follows x n) (released : List NodeId) :
    SearchTree.Follows { tree with released } x n := by
  induction h with
  | root hn hparent hchanges => exact .root (show SearchTree.node? { tree with released } _ = some _ from hn) hparent hchanges
  | child hn hparent hchanges _ ih =>
    exact .child (show SearchTree.node? { tree with released } _ = some _ from hn) hparent hchanges ih

theorem Retains.released (h : s.Retains x q busy) {out : NodeId → Prop} (hwf : s.tree.Wf out) (released : List NodeId) :
    Retains x q busy { s with tree := { s.tree with released } } := by
  have hgrows : SearchTree.Grows s.tree { s.tree with released } :=
    ⟨Nat.le_refl _, fun hn _ => ⟨_, hn, rfl, fun _ hc => hc⟩⟩
  refine h.withTree hwf hgrows h.anchored fun hq => ?_
  obtain ⟨n, node, hcovers, hbusy⟩ := h.covered hq
  exact ⟨n, node, ⟨hcovers.mem, hcovers.waits, hcovers.bound, follows_released hcovers.follows released⟩, hbusy⟩

/-- **Constraints of nodes that left the tree** leave the others as they are. -/
theorem Retains.frees (h : s.Retains x q busy) (hfiled : s.Filed) {out : NodeId → Prop} (hwf : s.tree.Wf out)
    {ids : List ConsId} (hfrees : s.Frees ids t) : t.Retains x q busy := by
  have hreleased := h.released hwf t.tree.released
  rw [← hfrees.nodes] at hreleased
  have hshrunk := hfrees.registry
  have hproper : t.handlers.linear.Proper := fun cons hcons => by
    rcases hfrees.deletes.rows cons hcons with hmem | hnil
    · exact h.proper cons hmem
    · intro c hc
      rw [hnil] at hc
      cases hc
  -- a constraint that was not deleted is still at its place
  have hkept : ∀ id < s.registry.size, id ∉ ids → s.registry.handler id = 0 →
      t.handlers.linear.conss[s.registry.index id]? = s.handlers.linear.conss[s.registry.index id]? :=
    fun id hid hnot hzero => hfrees.deletes.kept _ fun id' hid' hzero' hindex => by
      dsimp only at hzero' hindex
      rw [hshrunk.handler] at hzero'
      rw [hshrunk.index] at hindex
      exact hnot (hfiled.distinct id' (hfrees.known id' hid') id hid hzero' hzero hindex ▸ hid')
  have hmoved : Retains x q busy { s with
      tree := t.tree, registry := t.registry, handlers := { s.handlers with linear := t.handlers.linear } } := by
    refine ⟨hreleased.size, hreleased.value, hreleased.finite, hreleased.minFrac, hreleased.partitioned, hreleased.branchable, hreleased.implications, hproper,
      fun id hid hdeleted hfollows => ?_, fun id hid n hn => ?_, hreleased.store, hreleased.known, hreleased.anchored,
      hreleased.covered⟩
    · dsimp only at hid hdeleted hfollows ⊢
      unfold Registry.isDeleted at hdeleted
      rw [hshrunk.size] at hid
      rw [hshrunk.record] at hdeleted hfollows
      dsimp only at hdeleted hfollows
      rw [Bool.or_eq_false_iff, List.contains_eq_mem, decide_eq_false_iff_not] at hdeleted
      rw [hshrunk.handler, hshrunk.index, meets_linear (hkept id hid hdeleted.2)]
      exact hreleased.constraints id hid hdeleted.1 hfollows
    · dsimp only at hid hn ⊢
      rw [hshrunk.size] at hid
      rw [hshrunk.record] at hn
      obtain ⟨hlt, hzero, hlazy⟩ := hreleased.scopes id hid n hn
      rw [hshrunk.handler, hshrunk.index]
      refine ⟨hlt, hzero, fun hdeleted => ?_⟩
      unfold Registry.isDeleted at hdeleted
      rw [hshrunk.record] at hdeleted
      dsimp only at hdeleted
      rw [Bool.or_eq_false_iff, List.contains_eq_mem, decide_eq_false_iff_not] at hdeleted
      rw [hkept id hid hdeleted.2 hzero]
      exact hlazy hdeleted.1
  exact hmoved.relaxes hfrees.deletes.frame

end BranchAndCut.Search

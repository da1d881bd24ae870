import BranchAndCut.Proofs.Tree.Paths

/-! # The depth of a tree and the number of its nodes

Most operations leave the queue and the counts of a tree alone. If every branching has two
children and no node lies deeper than a bound, an open node has room below it for a whole
binary tree. Splitting it divides that room among its children, so all the nodes that are
ever created fit into one such tree. -/

namespace BranchAndCut.SearchTree

/-! ## What operations leave alone -/

section Counts

variable {K : Type} {t u : SearchTree K}

/-- Queue and counts stay. -/
structure Retains (t u : SearchTree K) : Prop where
  queue : u.queue = t.queue
  nextId : u.nextId = t.nextId
  prunedByBound : u.prunedByBound = t.prunedByBound
  unresolved : u.unresolved = t.unresolved
  maxDepth : u.maxDepth = t.maxDepth

theorem Retains.refl (t : SearchTree K) : Retains t t := ⟨rfl, rfl, rfl, rfl, rfl⟩

theorem Retains.trans {v : SearchTree K} (h : Retains t u) (h' : Retains u v) : Retains t v :=
  ⟨h'.queue.trans h.queue, h'.nextId.trans h.nextId, h'.prunedByBound.trans h.prunedByBound,
    h'.unresolved.trans h.unresolved, h'.maxDepth.trans h.maxDepth⟩

theorem setNode_retains (t : SearchTree K) (n : Node K) : Retains t (t.setNode n) := ⟨rfl, rfl, rfl, rfl, rfl⟩

theorem removeUpwards_retains (id : NodeId) (fuel : Nat) : Preserves Retains (removeUpwards (K := K) id fuel) := by
  induction fuel generalizing id with
  | zero => exact fun t => .throw (.refl t)
  | succ fuel ih =>
    intro t
    unfold removeUpwards
    refine .bind (.get ?_)
    split
    · exact .throw (.refl t)
    · split
      · have hremoved : Retains t (t.remove id) := ⟨rfl, rfl, rfl, rfl, rfl⟩
        refine .bind (.set ?_)
        split
        · exact .pure hremoved
        · split
          · exact .throw hremoved
          · have hset := fun n => hremoved.trans (setNode_retains (t.remove id) n)
            exact .bind (.set ((ih _ _).mono (fun _ _ => (hset _).trans) fun _ _ => (hset _).trans))
      · exact .pure (.refl t)

theorem close_retains (id : NodeId) (status : NodeStatus) : Preserves Retains (close (K := K) id status) := by
  intro t
  unfold close
  refine .bind (.get ?_)
  split
  · exact .throw (.refl t)
  · have hset := setNode_retains t
    exact .bind (.set ((removeUpwards_retains id _ _).mono (fun _ _ => (hset _).trans) fun _ _ => (hset _).trans))

theorem recordChanges_retains (id : NodeId) (changes : List (BoundChange K)) :
    Preserves Retains (recordChanges (K := K) id changes) := by
  intro t
  unfold recordChanges
  refine .bind (.get ?_)
  split
  · exact .throw (.refl t)
  · exact .set ⟨rfl, rfl, rfl, rfl, rfl⟩

theorem modifyNode_retains (t : SearchTree K) (id : NodeId) (f : Node K → Node K) : Retains t (t.modifyNode id f) := by
  unfold modifyNode
  split <;> exact ⟨rfl, rfl, rfl, rfl, rfl⟩

variable [Scalar K]

/-- The deepest level stays. -/
def SameDepth (t u : SearchTree K) : Prop := u.maxDepth = t.maxDepth

instance : Std.Refl (SameDepth : SearchTree K → SearchTree K → Prop) := ⟨fun _ => rfl⟩

instance : IsTrans (SearchTree K) SameDepth := ⟨fun _ _ _ h h' => Eq.trans h' h⟩

omit [Scalar K] in
theorem close_sameDepth (id : NodeId) (status : NodeStatus) : Preserves SameDepth (close (K := K) id status) :=
  (close_retains id status).mono fun _ _ h => h.maxDepth

theorem popLoop_sameDepth (prunable : K → Bool) (fuel : Nat) : Preserves SameDepth (popLoop prunable fuel) := by
  induction fuel with
  | zero => exact .pure none
  | succ fuel ih =>
    intro t
    unfold popLoop
    refine .bind (.get ?_)
    split
    · exact .bind (.set (.pure rfl))
    · refine .bind (.set ?_)
      split
      · exact .throw rfl
      · split
        · refine .bind (.set ?_)
          exact Ensures.bind_mono ((close_sameDepth _ _ _).mono (fun _ _ h => h) fun _ _ h => h) fun _ u hu =>
            (ih.after hu).mono (fun _ _ h => h) fun _ _ h => h
        · exact .bind (.set (.pure rfl))

theorem popNext_sameDepth (prunable : K → Bool) : Preserves SameDepth (popNext prunable) :=
  .get_bind fun t => popLoop_sameDepth prunable _ t

theorem pruneDominated_sameDepth (prunable : K → Bool) : Preserves SameDepth (pruneDominated prunable) :=
  .bind (.modifyGet fun _ => rfl) fun _ => .bind (.forM fun id => close_sameDepth id _) fun _ =>
    .bind (.modify fun _ => rfl) fun _ => .pure _

omit [Scalar K] in
theorem markUnresolved_sameDepth (id : NodeId) : Preserves SameDepth (markUnresolved (K := K) id) := by
  intro t
  unfold markUnresolved
  refine .bind (.get ?_)
  split
  · exact .throw rfl
  · exact .set rfl

/-- **Splitting a node** goes one level deeper. -/
theorem pushChildren_maxDepth {id : NodeId} {node : Node K} (hn : t.node? id = some node) {d : BranchingDecision K}
    (hmany : 2 ≤ d.children.length) (objective : K) (basis : Option SavedBasis) {ids : List NodeId}
    (hret : Returns (pushChildren id d objective basis) t ids u) :
    u.maxDepth = Nat.max t.maxDepth (node.depth + 1) := by
  have hfold : ∀ (children : List (Node K)) (t : SearchTree K), (∀ x ∈ children, x.depth = node.depth + 1) →
      children ≠ [] → (children.foldl addChild t).maxDepth = Nat.max t.maxDepth (node.depth + 1) := by
    intro children
    induction children with
    | nil => exact fun _ _ hne => absurd rfl hne
    | cons x rest ih =>
      intro t hdepth _
      have hx : (t.addChild x).maxDepth = Nat.max t.maxDepth (node.depth + 1) :=
        congrArg (Nat.max t.maxDepth) (hdepth x List.mem_cons_self)
      rw [List.foldl_cons]
      by_cases hrest : rest = []
      · rw [hrest]
        exact hx
      · rw [ih _ (fun y hy => hdepth y (List.mem_cons_of_mem _ hy)) hrest, hx]
        exact (Nat.max_assoc ..).trans (congrArg _ (Nat.max_self _))
  obtain ⟨rfl, rfl⟩ := (pushChildren_at hn hmany objective basis).unique hret
  refine (modifyNode_retains ..).maxDepth.trans ((hfold _ _ (fun x hx => ?_) ?_).trans rfl)
  · obtain ⟨spec, -, rfl⟩ := List.mem_map.mp hx
    exact (childOf_isChild node d objective _ _).depth
  · intro hnil
    have hlength := congrArg List.length hnil
    simp only [List.length_map, List.length_zipIdx, List.length_nil] at hlength
    omega

end Counts

/-! ## The room below open nodes -/

section Room

variable {K : Type} {D : Nat} {t u : SearchTree K} {n : NodeId} {node : Node K} {out out' : NodeId → Prop}

/-- How many nodes a binary tree of depth `D` has below a node that is not closed. -/
def below (D : Nat) (t : SearchTree K) (n : NodeId) : Nat :=
  match t.node? n with
  | some node => if node.status.isClosed then 0 else 2 ^ (D + 1 - node.depth) - 2
  | none => 0

/-- No node lies deeper than `D`, and there was room for all of them. -/
structure Shallow (D : Nat) (t : SearchTree K) : Prop where
  live : ∀ {n node}, t.node? n = some node → node.depth ≤ D
  deepest : t.maxDepth ≤ D
  room : t.nextId + ∑ n ∈ Finset.range t.nextId, t.below D n < 2 ^ (D + 1)

/-- The nodes of the second tree are where they were in the first, and those that were
closed are so. -/
structure Trims (t u : SearchTree K) : Prop where
  nextId : u.nextId = t.nextId
  deepest : SameDepth t u
  nodes : ∀ {n node}, u.node? n = some node → ∃ old, t.node? n = some old ∧ node.parent = old.parent ∧
    node.depth = old.depth ∧ (old.status.isClosed = true → node.status.isClosed = true)

theorem Trims.trans {v : SearchTree K} (h : Trims t u) (h' : Trims u v) : Trims t v :=
  ⟨h'.nextId.trans h.nextId, Eq.trans h'.deepest h.deepest, fun hn => by
    obtain ⟨mid, hmid, hparent', hdepth', hclosed'⟩ := h'.nodes hn
    obtain ⟨old, hold, hparent, hdepth, hclosed⟩ := h.nodes hmid
    exact ⟨old, hold, hparent'.trans hparent, hdepth'.trans hdepth, hclosed' ∘ hclosed⟩⟩

theorem Trims.leads (h : Trims t u) {path : List NodeId} (hp : u.Leads path n) : t.Leads path n :=
  hp.of_parents fun hn => by
    obtain ⟨old, hold, hparent, -⟩ := h.nodes hn
    exact ⟨old, hold, hparent⟩

theorem Trims.isPath (h : Trims t u) {ns : List NodeId} (hns : u.IsPath ns) : t.IsPath ns := by
  obtain ⟨n, hn⟩ := hns
  exact ⟨n, h.leads hn⟩

/-- Nodes that are closed leave more room. -/
theorem Shallow.trims (h : t.Shallow D) (ht : Trims t u) : u.Shallow D := by
  refine ⟨fun hn => ?_, ht.deepest ▸ h.deepest, ?_⟩
  · obtain ⟨old, hold, -, hsame, -⟩ := ht.nodes hn
    exact hsame ▸ h.live hold
  · rw [ht.nextId]
    refine Nat.lt_of_le_of_lt (Nat.add_le_add_left (Finset.sum_le_sum fun n _ => ?_) _) h.room
    unfold below
    cases hn : u.node? n with
    | none => exact Nat.zero_le _
    | some node =>
      obtain ⟨old, hold, -, hsame, hclosed⟩ := ht.nodes hn
      rw [hold]
      dsimp only
      split
      · exact Nat.zero_le _
      · next hnot => rw [if_neg fun hc => hnot (hclosed hc), hsame]

/-- What only touches the queue and the counts. -/
theorem trims_of_nodes (hnextId : u.nextId = t.nextId) (hdepth : SameDepth t u) (hnodes : u.nodes = t.nodes) : Trims t u :=
  ⟨hnextId, hdepth, fun {n node} hn => ⟨node, by unfold node? at hn ⊢; rwa [hnodes] at hn, rfl, rfl, id⟩⟩

/-- A node in the same place, closed or not. -/
theorem trims_setNode (hn : t.node? n = some node) {new : Node K} (hid : new.id = n) (hparent : new.parent = node.parent)
    (hdepth : new.depth = node.depth) (hstatus : node.status.isClosed = false) : Trims t (t.setNode new) := by
  refine ⟨rfl, rfl, fun {m x} hm => ?_⟩
  rw [node?_setNode, hid] at hm
  split at hm
  · next heq =>
    obtain rfl := Option.some.inj hm
    exact ⟨node, heq ▸ hn, hparent, hdepth, fun hc => by rw [hstatus] at hc; cases hc⟩
  · exact ⟨x, hm, rfl, rfl, id⟩

variable [Scalar K]

/-- The depth of a node is that of its path. -/
theorem Wf.depth_eq (ht : t.Wf out) (hu : u.Wf out') (hthins : Thins t u) {x old : Node K}
    (hx : u.node? n = some x) (hold : t.node? n = some old) : x.depth = old.depth := by
  obtain ⟨path, -, hpath, hlength⟩ := pathTo_leads hu hx
  obtain ⟨path', -, hpath', hlength'⟩ := pathTo_leads ht hold
  obtain rfl := hpath'.unique (hthins.leads hpath).1
  omega

theorem Closes.trims (ht : t.Wf out) (hu : u.Wf out') {gone : NodeId → Prop} (hc : Closes t u gone)
    (hdepth : SameDepth t u) : Trims t u := by
  refine ⟨hc.nextId, hdepth, fun {n x} hx => ?_⟩
  obtain ⟨old, hold, hparent, -, -, hstatus⟩ := hc.nodes hx
  exact ⟨old, hold, hparent, ht.depth_eq hu hc.thins hx hold,
    fun hclosed => hstatus.elim (fun hs => hs ▸ hclosed) And.right⟩

/-- **Taking the next node** leaves it where it was. -/
theorem popNext_trims [IsTrans K (· < ·)] (ht : t.Wf fun _ => False) (prunable : K → Bool) :
    ∃ next u, Returns (popNext prunable) t next u ∧ Trims t u ∧ Thins t u := by
  obtain ⟨next, u, hret, hu, v, hcloses, htakes⟩ := popNext_spec ht prunable
  have hdepth := (popNext_sameDepth prunable _).returns hret
  cases next with
  | none =>
    obtain ⟨rfl, -⟩ := htakes
    exact ⟨none, u, hret, hcloses.trims ht hu hdepth, hcloses.thins⟩
  | some n =>
    obtain ⟨node, hn, hid, hopen, -, rfl⟩ := htakes
    have htaken : Thins v (v.setNode { node with status := .solving }) :=
      thins_setNode hn (show ({ node with status := .solving } : Node K).id = n from hid) rfl rfl
    have hthins : Thins t (v.setNode { node with status := .solving }) := Thins.trans hcloses.thins htaken
    refine ⟨some n, _, hret, ⟨hcloses.nextId, hdepth, fun {m x} hx => ?_⟩, hthins⟩
    obtain ⟨old, hold, hparent, -⟩ := hthins hx
    refine ⟨old, hold, hparent, ht.depth_eq hu hthins hx hold, fun hclosed => ?_⟩
    rw [node?_setNode, hid] at hx
    split at hx
    · next heq =>
      subst heq
      -- the node taken was open, and had not been closed before
      obtain ⟨old', hold', -, -, -, hstatus⟩ := hcloses.nodes hn
      obtain rfl := Option.some.inj (hold.symm.trans hold')
      rw [hopen] at hstatus
      rcases hstatus with hstatus | ⟨-, hnot⟩
      · rw [← hstatus] at hclosed
        cases hclosed
      · cases hnot
    · obtain ⟨old', hold', -, -, -, hstatus⟩ := hcloses.nodes hx
      obtain rfl := Option.some.inj (hold.symm.trans hold')
      exact hstatus.elim (fun hs => hs ▸ hclosed) And.right

/-- **Splitting a node in two** divides the room below it among its children. -/
theorem Shallow.splits {d : BranchingDecision K} (h : t.Shallow D) (ht : t.Wf fun _ => False)
    (hs : Splits t u n node d) (hn : t.node? n = some node) (hstatus : node.status.isClosed = false)
    (htwo : d.children.length = 2) (hdepth : u.maxDepth = Nat.max t.maxDepth (node.depth + 1))
    (hdeep : node.depth + 1 ≤ D) : u.Shallow D := by
  have hfresh := ht.fresh hn
  have hlive : ∀ {m x}, u.node? m = some x → x.depth ≤ D := fun hm => by
    rcases hs.read hm with ⟨-, basis, rfl⟩ | ⟨spec, -, -, hchild, -⟩ | ⟨-, -, hold⟩
    · have hlive := h.live hn
      exact hlive
    · exact hchild.depth ▸ hdeep
    · exact h.live hold
  refine ⟨hlive, hdepth ▸ Nat.max_le.mpr ⟨h.deepest, hdeep⟩, ?_⟩
  have hnew : ∀ m, t.nextId ≤ m → m < t.nextId + 2 → u.below D m = 2 ^ (D - node.depth) - 2 := by
    intro m hle hlt
    obtain ⟨spec, hspec, -⟩ | ⟨-, hnot⟩ := numbered_cases t.nextId d.children m
    · obtain ⟨x, hx, -, hchild, -⟩ := hs.child hspec
      unfold below
      rw [hx]
      dsimp only
      rw [hchild.status, if_neg (by nofun), hchild.depth]
      congr 2
      omega
    · exact absurd ⟨hle, htwo ▸ hlt⟩ hnot
  have hself : t.below D n = 2 ^ (D + 1 - node.depth) - 2 := by
    unfold below
    rw [hn]
    exact if_neg (by rw [hstatus]; nofun)
  have hgone : u.below D n = 0 := by
    obtain ⟨basis, hsplit⟩ := hs.parent
    unfold below
    rw [hsplit]
    rfl
  have hothers : ∑ m ∈ (Finset.range t.nextId).erase n, u.below D m = ∑ m ∈ (Finset.range t.nextId).erase n, t.below D m := by
    refine Finset.sum_congr rfl fun m hm => ?_
    obtain ⟨hmn, hlt⟩ := Finset.mem_erase.mp hm
    rw [Finset.mem_range] at hlt
    unfold below
    rw [hs.other hmn fun spec hspec => Nat.not_le_of_lt hlt hspec.1]
  have hapart : ∀ f : Nat → Nat, ∑ m ∈ Finset.range t.nextId, f m = f n + ∑ m ∈ (Finset.range t.nextId).erase n, f m :=
    fun f => (Finset.add_sum_erase _ f (Finset.mem_range.mpr hfresh)).symm
  have hroom := h.room
  rw [hapart, hself] at hroom
  rw [hs.nextId, htwo, Finset.sum_range_succ, Finset.sum_range_succ, hapart, hgone,
    hothers, hnew _ (Nat.le_refl _) (by omega), hnew _ (by omega) (by omega)]
  have hpow : 2 ^ (D + 1 - node.depth) = 2 * 2 ^ (D - node.depth) := by
    rw [← pow_succ']
    congr 1
    omega
  have htwice : 2 ≤ 2 ^ (D - node.depth) := by
    calc 2 = 2 ^ 1 := rfl
      _ ≤ 2 ^ (D - node.depth) := Nat.pow_le_pow_right (by decide) (by omega)
  omega

/-- The root alone has room for all. -/
theorem shallow_root (D : Nat) {selection : NodeSelection} {bound : K}
    (hret : Returns (createRoot bound) (new selection) 0 u) : u.Shallow D := by
  obtain ⟨v, hret', -, hnextId, -, hnodes⟩ := createRoot_spec selection bound
  obtain ⟨-, rfl⟩ := hret'.unique hret
  have hdepth : u.maxDepth = 0 := by
    cases hret
    rfl
  refine ⟨fun {n node} hn => ?_, hdepth ▸ Nat.zero_le D, ?_⟩
  · rw [hnodes] at hn
    split at hn
    · cases hn
      exact Nat.zero_le D
    · cases hn
  · rw [hnextId, Finset.sum_range_one]
    unfold below
    rw [hnodes, if_pos rfl]
    have htwice : 2 ≤ 2 ^ (D + 1) := Nat.pow_le_pow_right (Nat.succ_pos 1) (Nat.succ_pos D)
    change 1 + (2 ^ (D + 1 - 0) - 2) < 2 ^ (D + 1)
    rw [Nat.sub_zero]
    omega

end Room

end BranchAndCut.SearchTree

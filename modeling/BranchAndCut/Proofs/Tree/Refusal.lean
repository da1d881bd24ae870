import BranchAndCut.Proofs.Exact
import BranchAndCut.Proofs.Tree.Depth
import BranchAndCut.Proofs.Tree.History
import BranchAndCut.Proofs.Tree.Named

/-! # Operations on the tree that fail

An operation looks up the nodes it is given before it changes anything, so that one that
fails leaves the tree as it was. There are two exceptions. Splitting takes numbers for the
children before it looks up the node. And the removal of a closed node, which goes on with
its parent, stops where the parent is gone; that takes a node that was split twice, since
the second split forgets the children of the first. -/

namespace BranchAndCut.SearchTree

variable {K : Type} {t u : SearchTree K} {n : NodeId} {node : Node K}

/-! ## Numbers of nodes -/

/-- Nodes are filed under numbers that have been given out, parents before their children. -/
structure Ordered (t : SearchTree K) : Prop where
  named : t.Named
  below : ∀ n node, t.node? n = some node → n < t.nextId
  parent : ∀ n node p, t.node? n = some node → node.parent = some p → p < n

namespace Ordered

theorem congr (h : t.Ordered) (hnodes : u.nodes = t.nodes) (hnextId : t.nextId ≤ u.nextId) : u.Ordered := by
  have hread : ∀ n, u.node? n = t.node? n := fun n => by rw [node?, hnodes, node?]
  exact ⟨h.named.congr hnodes, fun n node hn => (h.below n node (hread n ▸ hn)).trans_le hnextId,
    fun n node p hn => h.parent n node p (hread n ▸ hn)⟩

theorem setNode (h : t.Ordered) {new : Node K} (hlt : new.id < t.nextId)
    (hparent : ∀ p, new.parent = some p → p < new.id) : (t.setNode new).Ordered where
  named := h.named.setNode new
  below n node hn := by
    rw [node?_setNode] at hn
    split at hn
    · next hid => exact hid ▸ hlt
    · exact h.below n node hn
  parent n node p hn hp := by
    rw [node?_setNode] at hn
    split at hn
    · next hid =>
      obtain rfl := Option.some.inj hn
      exact hid ▸ hparent p hp
    · exact h.parent n node p hn hp

/-- A node may change, but not move. -/
theorem update (h : t.Ordered) (hn : t.node? n = some node) {new : Node K} (hid : new.id = node.id)
    (hparent : new.parent = node.parent) : (t.setNode new).Ordered := by
  have hnew : new.id = n := hid.trans (h.named n node hn)
  exact h.setNode (hnew ▸ h.below n node hn) fun p hp => hnew ▸ h.parent n node p hn (hparent ▸ hp)

theorem remove (h : t.Ordered) (id : NodeId) : (t.remove id).Ordered where
  named := h.named.remove id
  below n node hn := by
    rw [node?_remove] at hn
    split at hn
    · cases hn
    · exact h.below n node hn
  parent n node p hn := by
    rw [node?_remove] at hn
    split at hn
    · cases hn
    · exact h.parent n node p hn

theorem removeUpwards (h : t.Ordered) (id : NodeId) (fuel : Nat) :
    Ensures (removeUpwards id fuel) t (fun _ u => u.Ordered) fun _ u => u.Ordered := by
  induction fuel generalizing t id with
  | zero => exact .throw h
  | succ fuel ih =>
    unfold SearchTree.removeUpwards
    refine .bind (.get ?_)
    split
    · exact .throw h
    · split
      · have hremoved := h.remove id
        refine .bind (.set ?_)
        split
        · exact .pure hremoved
        · split
          · exact .throw hremoved
          · next parent hparent => exact .bind (.set (ih (hremoved.update hparent (by rfl) (by rfl)) _))
      · exact .pure h

theorem close (h : t.Ordered) (id : NodeId) (status : NodeStatus) :
    Ensures (close id status) t (fun _ u => u.Ordered) fun _ u => u.Ordered := by
  unfold SearchTree.close
  refine .bind (.get ?_)
  split
  · exact .throw h
  · next hn => exact .bind (.set (removeUpwards (h.update hn (by rfl) (by rfl)) _ _))

theorem closeAll (h : t.Ordered) (ids : List NodeId) (status : NodeStatus) :
    Ensures (ids.forM fun id => SearchTree.close id status) t (fun _ u => u.Ordered) fun _ u => u.Ordered :=
  Ensures.forM (I := fun _ (u : SearchTree K) => u.Ordered) (fun id _ _ hu => hu.close id status) h

theorem markUnresolved (h : t.Ordered) (id : NodeId) :
    Ensures (markUnresolved id) t (fun _ u => u.Ordered) fun _ u => u.Ordered := by
  unfold SearchTree.markUnresolved
  refine .bind (.get ?_)
  split
  · exact .throw h
  · next node hn =>
    have hset : (t.setNode { node with status := .unresolved }).Ordered := h.update hn rfl rfl
    exact .set (hset.congr rfl le_rfl)

theorem recordChanges (h : t.Ordered) (id : NodeId) (changes : List (BoundChange K)) :
    Ensures (recordChanges id changes) t (fun _ u => u.Ordered) fun _ u => u.Ordered := by
  unfold SearchTree.recordChanges
  refine .bind (.get ?_)
  split
  · exact .throw h
  · next hn => exact .set (h.update hn (by rfl) (by rfl))

theorem modifyNode (h : t.Ordered) (id : NodeId) {f : Node K → Node K} (hid : ∀ node, (f node).id = node.id)
    (hparent : ∀ node, (f node).parent = node.parent) : (t.modifyNode id f).Ordered := by
  unfold SearchTree.modifyNode
  split
  · next hn => exact h.update hn (hid _) (hparent _)
  · exact h

theorem abandonOpen (h : t.Ordered) : Ensures abandonOpen t (fun _ u => u.Ordered) fun _ u => u.Ordered := by
  have hdrained : ∀ queue, Ordered { t with queue } := fun _ => h.congr rfl le_rfl
  exact .bind (.modifyGet ((hdrained _).closeAll _ _))

variable [Scalar K]

theorem popLoop (h : t.Ordered) (prunable : K → Bool) (fuel : Nat) :
    Ensures (popLoop prunable fuel) t (fun _ u => u.Ordered) fun _ u => u.Ordered := by
  induction fuel generalizing t with
  | zero => exact .pure h
  | succ fuel ih =>
    unfold SearchTree.popLoop
    refine .bind (.get ?_)
    split
    · exact .bind (.set (.pure (h.congr rfl le_rfl)))
    · have hpopped : ∀ queue, Ordered { t with queue } := fun _ => h.congr rfl le_rfl
      refine .bind (.set ?_)
      split
      · exact .throw (hpopped _)
      · next hn =>
        split
        · have hcounted : ∀ queue, Ordered { t with queue, prunedByBound := t.prunedByBound + 1 } :=
            fun _ => h.congr rfl le_rfl
          exact .bind (.set (.bind_mono ((hcounted _).close _ _) fun _ _ hu => ih hu))
        · exact .bind (.set (.pure ((hpopped _).update hn (by rfl) (by rfl))))

theorem pruneDominated (h : t.Ordered) (prunable : K → Bool) :
    Ensures (pruneDominated prunable) t (fun _ u => u.Ordered) fun _ u => u.Ordered := by
  have hpruned : ∀ queue, Ordered { t with queue } := fun _ => h.congr rfl le_rfl
  refine .bind (.modifyGet (.bind_mono ((hpruned _).closeAll _ _) ?_))
  exact fun _ _ hu => .bind (.modify (.pure (hu.congr rfl le_rfl)))

theorem createRoot (h : t.Ordered) (bound : K) :
    Ensures (createRoot bound) t (fun _ u => u.Ordered) fun _ u => u = t := by
  unfold SearchTree.createRoot
  refine .bind (.get ?_)
  dsimp only
  split
  · exact .bind (.throw rfl)
  · have hnext : Ordered { t with nextId := t.nextId + 1 } := h.congr rfl (Nat.le_succ _)
    have hset : (SearchTree.setNode { t with nextId := t.nextId + 1 } (Node.root t.nextId bound)).Ordered :=
      hnext.setNode (Nat.lt_succ_self _) nofun
    exact .bind (.set (.pure (hset.congr rfl le_rfl)))

/-- Nodes with new numbers are added below older ones. -/
theorem addChildren (h : t.Ordered) {children : List (Node K)}
    (hnew : ∀ child ∈ children, child.id < t.nextId ∧ ∀ p, child.parent = some p → p < child.id) :
    (children.foldl addChild t).Ordered := by
  induction children generalizing t with
  | nil => exact h
  | cons child children ih =>
    obtain ⟨⟨hlt, hparent⟩, hrest⟩ := List.forall_mem_cons.mp hnew
    exact ih ((h.setNode hlt hparent).congr rfl le_rfl) hrest

/-- Numbers are taken for the children before their parent is looked up. -/
theorem pushChildren (h : t.Ordered) (id : NodeId) (d : BranchingDecision K) (objective : K)
    (basis : Option SavedBasis) :
    Ensures (pushChildren id d objective basis) t (fun _ u => u.Ordered) fun _ u => u = t ∨
      t.node? id = none ∧ 2 ≤ d.children.length ∧ u = { t with nextId := t.nextId + d.children.length } := by
  unfold SearchTree.pushChildren
  dsimp only
  by_cases hfew : d.children.length < 2
  · rw [if_pos hfew]
    exact .bind (.throw (.inl rfl))
  rw [if_neg hfew]
  refine .bind (.get (.bind (.modify (.bind (.get ?_)))))
  have hnumbers : Ordered { t with nextId := t.nextId + d.children.length } := h.congr rfl (Nat.le_add_right _ _)
  split
  · next hn => exact .throw (.inr ⟨hn, not_lt.mp hfew, rfl⟩)
  · next node hn =>
    have hlt : node.id < t.nextId := by
      rw [h.named id node hn]
      exact h.below id node hn
    refine .bind (.set (.pure (congr (modifyNode (hnumbers.addChildren ?_) id ?_ ?_) rfl le_rfl)))
    · intro child hchild
      obtain ⟨⟨spec, k⟩, hk, rfl⟩ := List.mem_map.mp hchild
      have hk := (List.mem_zipIdx' hk).1
      dsimp only
      rw [childOf_id, (childOf_isChild node d objective _ spec).parent]
      refine ⟨Nat.add_lt_add_left hk _, fun p hp => ?_⟩
      exact Option.some.inj hp ▸ hlt.trans_le (Nat.le_add_right _ _)
    · exact fun _ => rfl
    · exact fun _ => rfl

end Ordered

/-! ## Nodes that lost their ancestors -/

/-- The numbers lead from a node upwards to a parent that is not in the tree. -/
inductive Strands (t : SearchTree K) : NodeId → List NodeId → NodeId → Prop
  | last {n p : NodeId} {node : Node K} (hn : t.node? n = some node) (hparent : node.parent = some p)
      (hgone : t.node? p = none) : Strands t n [n] p
  | next {n q p : NodeId} {node : Node K} {ns : List NodeId} (hn : t.node? n = some node)
      (hparent : node.parent = some q) (hrest : Strands t q ns p) : Strands t n (n :: ns) p

theorem Strands.head_mem {ns : List NodeId} {p : NodeId} (h : t.Strands n ns p) : n ∈ ns := by
  cases h <;> exact List.mem_cons_self

/-- Only the parents of the nodes up to a number matter. -/
theorem Strands.of_parents {ns : List NodeId} {p : NodeId} (h : u.Strands n ns p) (hu : u.Ordered)
    (hsame : ∀ m ≤ n, (u.node? m).map Node.parent = (t.node? m).map Node.parent) : t.Strands n ns p := by
  have hread : ∀ {m : NodeId} {x : Node K}, m ≤ n → u.node? m = some x →
      ∃ y, t.node? m = some y ∧ y.parent = x.parent := fun {m x} hm hx => by
    have hparents := hsame m hm
    rw [hx, Option.map_some, eq_comm, Option.map_eq_some_iff] at hparents
    exact hparents
  induction h with
  | @last n p node hn hparent hgone =>
    obtain ⟨x, hx, hp⟩ := hread le_rfl hn
    have hlost := hsame p (hu.parent _ _ _ hn hparent).le
    rw [hgone, Option.map_none, eq_comm, Option.map_eq_none_iff] at hlost
    exact .last hx (hp.trans hparent) hlost
  | @next n q p node ns hn hparent _ ih =>
    obtain ⟨x, hx, hp⟩ := hread le_rfl hn
    have hlt := hu.parent _ _ _ hn hparent
    exact .next hx (hp.trans hparent) (ih (fun m hm => hsame m (hm.trans hlt.le))
      fun hm => hread (hm.trans hlt.le))

/-- A tree in order, in which a node is split once, has the parents of all its nodes. -/
theorem Wf.not_strands [Scalar K] {out : NodeId → Prop} (h : t.Wf out) {ns : List NodeId} {p : NodeId} :
    ¬ t.Strands n ns p := by
  intro hns
  induction hns with
  | last hn hparent hgone =>
    obtain ⟨parent, hp, -⟩ := h.parent hn hparent
    exact nomatch hgone.symm.trans hp
  | next _ _ _ ih => exact ih

/-- The nodes from one upwards have been removed, and nothing else was changed. -/
structure Cuts (t u : SearchTree K) (ns : List NodeId) : Prop where
  nodes : ∀ m, u.node? m = if m ∈ ns then none else t.node? m
  released : u.released = ns.reverse ++ t.released

/-- **A removal that fails** has removed nodes upwards to one whose parent is gone. -/
theorem Ordered.removeUpwards_failing (h : t.Ordered) (hn : t.node? n = some node) {fuel : Nat}
    (hfuel : t.nodes.size < fuel) :
    Ensures (SearchTree.removeUpwards n fuel) t (fun _ _ => True) fun e u =>
      ∃ ns p, t.Strands n ns p ∧ t.Cuts u ns ∧ e = .internal (.noNode p) := by
  induction fuel generalizing t n node with
  | zero => exact (Nat.not_lt_zero _ hfuel).elim
  | succ fuel ih =>
    unfold Ensures
    rw [removeUpwards_at hn]
    by_cases hcond : (node.status.isClosed && node.liveChildren == 0) = true
    swap
    · rw [if_neg hcond]
      trivial
    rw [if_pos hcond]
    cases hparent : node.parent with
    | none => trivial
    | some q =>
      have hqn : q < n := h.parent n node q hn hparent
      have hread : (t.remove n).node? q = t.node? q := by rw [node?_remove, if_neg hqn.ne']
      dsimp only
      rw [hread]
      cases hq : t.node? q with
      | none =>
        refine ⟨[n], q, .last hn hparent hq, ⟨fun m => ?_, rfl⟩, rfl⟩
        rw [node?_remove]
        simp only [List.mem_singleton, eq_comm]
      | some parent =>
        have hd := detaches_child hn hparent hqn.ne hq (h.named q parent hq)
        have hv : ((t.remove n).setNode { parent with liveChildren := parent.liveChildren - 1 }).Ordered :=
          (h.remove n).update (hread.trans hq) rfl rfl
        dsimp only
        generalize (t.remove n).setNode { parent with liveChildren := parent.liveChildren - 1 } = v at hd hv ⊢
        have hsize : v.nodes.size < fuel := hd.size.trans_le (Nat.le_of_lt_succ hfuel)
        refine (ih hv (hd.kept hq hqn.ne) hsize).mono (fun _ _ _ => trivial) ?_
        rintro e u ⟨ns, p, hns, hcuts, rfl⟩
        refine ⟨n :: ns, p, .next hn hparent (hns.of_parents hv fun m hm => ?_), ⟨fun m => ?_, ?_⟩, rfl⟩
        · rw [hd.nodes, if_neg (hm.trans_lt hqn).ne, Option.map_map]
          congr 1
          funext x
          dsimp only [Function.comp_apply]
          split <;> rfl
        · rw [hcuts.nodes]
          by_cases hm : m ∈ ns
          · rw [if_pos hm, if_pos (List.mem_cons_of_mem n hm)]
          by_cases hmn : m = n
          · rw [if_neg hm, hmn, hd.dead, if_pos List.mem_cons_self]
          · -- `q` is among the nodes that are removed
            have hmq : ¬ node.parent = some m := fun heq =>
              hm (Option.some.inj (hparent.symm.trans heq) ▸ hns.head_mem)
            rw [if_neg hm, if_neg (List.not_mem_cons_of_ne_of_not_mem hmn hm), hd.nodes, if_neg hmn]
            simp only [if_neg hmq, Option.map_id']
        · rw [hcuts.released, hd.released, List.reverse_cons, List.append_assoc]
          rfl

theorem Ordered.prune_failing (h : t.Ordered) (id : NodeId) (reason : PruneReason) :
    Ensures (prune id reason) t (fun _ _ => True) fun _ u => u = t ∨
      ∃ ns p, t.Strands id ns p ∧ t.Cuts u ns ∧ Retains t u := by
  unfold prune SearchTree.close
  refine .bind (.get ?_)
  split
  · exact .throw (.inl rfl)
  · next node hn =>
    have hread : ∀ m, (t.setNode { node with status := .pruned reason }).node? m =
        if id = m then some { node with status := .pruned reason } else t.node? m := fun m => by
      rw [node?_setNode, h.named id node hn]
    have hset : (t.setNode { node with status := .pruned reason }).Ordered := h.update hn rfl rfl
    have hsize : (t.setNode { node with status := .pruned reason }).nodes.size = t.nodes.size :=
      size_setNode hn (h.named id node hn)
    have hupwards := (hset.removeUpwards_failing ((hread id).trans (if_pos rfl))
      (hsize.trans_lt (Nat.lt_succ_self _))).and (removeUpwards_retains id (t.nodes.size + 1) _)
    refine .bind (.set (hupwards.mono (fun _ _ _ => trivial) ?_))
    rintro e u ⟨⟨ns, p, hns, hcuts, -⟩, hretains⟩
    refine .inr ⟨ns, p, hns.of_parents hset fun m _ => ?_, ⟨fun m => ?_, hcuts.released⟩,
      (setNode_retains t _).trans hretains⟩
    · rw [hread]
      split
      · next hm =>
        rw [← hm, hn]
        rfl
      · rfl
    · rw [hcuts.nodes, hread]
      by_cases hm : m ∈ ns
      · rw [if_pos hm, if_pos hm]
      · rw [if_neg hm, if_neg hm, if_neg]
        rintro rfl
        exact hm hns.head_mem

/-! ## All calls -/

section Calls

variable [Scalar K]

/-- A call that creates the root or names a node. -/
inductive Request (K : Type) where
  | createRoot (bound : K)
  | pushChildren (id : NodeId) (d : BranchingDecision K) (objective : K) (basis : Option SavedBasis)
  | prune (id : NodeId) (reason : PruneReason)
  | markUnresolved (id : NodeId)
  | recordChanges (id : NodeId) (changes : List (BoundChange K))
  | pathTo (id : NodeId)

/-- The call, whatever it answers. -/
def Request.run : Request K → TreeM K Unit
  | createRoot bound => discard (SearchTree.createRoot bound)
  | pushChildren id d objective basis => discard (SearchTree.pushChildren id d objective basis)
  | prune id reason => SearchTree.prune id reason
  | markUnresolved id => SearchTree.markUnresolved id
  | recordChanges id changes => SearchTree.recordChanges id changes
  | pathTo id => do
    match (← get).pathTo id with
    | .ok _ => pure ()
    | .error e => throw e

/-- A tree that operations lead to, called with any arguments; some of them may have failed. -/
inductive Reachable : SearchTree K → Prop
  | new (selection : NodeSelection) : Reachable (SearchTree.new selection)
  | root {t u : SearchTree K} {bound : K} (h : Reachable t) (hroot : EndsIn (createRoot bound) t u) : Reachable u
  | op {t u : SearchTree K} {l : Ledger} {op : TreeOp K} (h : Reachable t) (hop : EndsIn (l.step op) t u) :
    Reachable u

theorem Ordered.step (h : t.Ordered) (l : Ledger) (op : TreeOp K) :
    Ensures (l.step op) t (fun _ u => u.Ordered) fun _ u => u.Ordered := by
  cases op with
  | popNext prunable =>
    refine .bind_mono (.bind (.get (h.popLoop prunable _))) fun next u hu => ?_
    cases next <;> exact .pure hu
  | pushChildren n d objective basis =>
    refine .bind ((h.pushChildren n d objective basis).mono (fun _ u hu => .pure hu) ?_)
    rintro _ u (rfl | ⟨-, -, rfl⟩)
    · exact h
    · exact h.congr rfl (Nat.le_add_right _ _)
  | prune n reason => exact .bind_mono (h.close n _) fun _ _ hu => .pure hu
  | markUnresolved n => exact .bind_mono (h.markUnresolved n) fun _ _ hu => .pure hu
  | raiseBound n bound =>
    refine .bind (.modify (.pure (h.modifyNode n (fun node => ?_) fun node => ?_)))
    · exact (node.raiseBound_place bound).1
    · exact (node.raiseBound_place bound).2.1
  | recordChanges n changes => exact .bind_mono (h.recordChanges n changes) fun _ _ hu => .pure hu
  | pruneDominated prunable => exact .bind_mono (h.pruneDominated prunable) fun _ _ hu => .pure hu
  | abandonOpen => exact .bind_mono h.abandonOpen fun _ _ hu => .pure hu
  | setHasIncumbent has => exact .bind (.modify (.pure (h.congr rfl le_rfl)))
  | lowestBound => exact .bind (.modifyGet (.pure (h.congr rfl le_rfl)))
  | drainReleased => exact .bind (.modifyGet (.pure (h.congr rfl le_rfl)))

theorem Reachable.ordered (h : t.Reachable) : t.Ordered := by
  induction h with
  | new selection =>
    have hnone : ∀ n, (SearchTree.new (K := K) selection).node? n = none := fun _ => Std.TreeMap.getElem?_emptyc
    have hvoid : ∀ n (node : Node K), (SearchTree.new (K := K) selection).node? n ≠ some node :=
      fun n node hn => nomatch (hnone n).symm.trans hn
    exact ⟨fun n node hn => (hvoid n node hn).elim, fun n node hn => (hvoid n node hn).elim,
      fun n node _ hn => (hvoid n node hn).elim⟩
  | @root t u bound _ hroot ih =>
    have hended : Ensures (SearchTree.createRoot bound) t (fun _ u => u.Ordered) fun _ u => u.Ordered :=
      (ih.createRoot bound).mono (fun _ _ => id) fun _ _ hu => hu ▸ ih
    exact hended.endsIn hroot
  | @op t u l op _ hop ih => exact (ih.step l op).endsIn hop

/-- **A call that fails leaves the tree as it was**, with two exceptions: a split of a node
that is not there has taken the numbers of the children, and a node below a parent that is
gone has been removed by the time the parent is missed. -/
theorem Reachable.request_failing (h : t.Reachable) {r : Request K} {e : Error K} (hfails : r.run t = .error e u) :
    u = t ∨
    (∃ id d objective basis, r = .pushChildren id d objective basis ∧ t.node? id = none ∧ 2 ≤ d.children.length ∧
      u = { t with nextId := t.nextId + d.children.length }) ∨
    ∃ id reason ns p, r = .prune id reason ∧ t.Strands id ns p ∧ t.Cuts u ns ∧ Retains t u := by
  have ht := h.ordered
  suffices hrun : Ensures r.run t (fun _ _ => True) fun _ u => u = t ∨
      (∃ id d objective basis, r = .pushChildren id d objective basis ∧ t.node? id = none ∧ 2 ≤ d.children.length ∧
        u = { t with nextId := t.nextId + d.children.length }) ∨
      ∃ id reason ns p, r = .prune id reason ∧ t.Strands id ns p ∧ t.Cuts u ns ∧ Retains t u from hrun.fails hfails
  cases r with
  | createRoot bound => exact .bind ((ht.createRoot bound).mono (fun _ _ _ => .pure trivial) fun _ _ => .inl)
  | pushChildren id d objective basis =>
    refine .bind ((ht.pushChildren id d objective basis).mono (fun _ _ _ => .pure trivial) ?_)
    exact fun _ u hu => hu.imp_right fun hu => .inl ⟨id, d, objective, basis, rfl, hu⟩
  | prune id reason =>
    refine (ht.prune_failing id reason).mono (fun _ _ h => h) fun _ u hu => hu.imp_right ?_
    exact fun ⟨ns, p, hu⟩ => .inr ⟨id, reason, ns, p, rfl, hu⟩
  | markUnresolved id =>
    unfold Request.run SearchTree.markUnresolved
    refine .bind (.get ?_)
    split
    · exact .throw (.inl rfl)
    · exact .set trivial
  | recordChanges id changes =>
    unfold Request.run SearchTree.recordChanges
    refine .bind (.get ?_)
    split
    · exact .throw (.inl rfl)
    · exact .set trivial
  | pathTo id =>
    refine .bind (.get ?_)
    split
    · exact .pure trivial
    · exact .throw (.inl rfl)

/-- The tree after some operations, whatever they answer. -/
def after (ops : List (TreeOp K)) (t : SearchTree K) : SearchTree K :=
  ops.foldl (fun t op => match ({} : Ledger).step op t with
    | .ok _ u => u
    | .error _ u => u) t

theorem Reachable.after (h : t.Reachable) (ops : List (TreeOp K)) : (after ops t).Reachable := by
  induction ops generalizing t with
  | nil => exact h
  | cons op ops ih =>
    refine ih ?_
    dsimp only
    split
    · next hstep => exact h.op (.inl ⟨_, hstep⟩)
    · next hstep => exact h.op (.inr ⟨_, hstep⟩)

end Calls

/-- The root alone. -/
def planted : SearchTree (Exact ℚ) := match createRoot 0 (new .bestBound) with
  | .ok _ u => u
  | .error _ u => u

theorem planted_reachable : planted.Reachable := by
  unfold planted
  split
  · next hroot => exact (Reachable.new _).root (.inl ⟨_, hroot⟩)
  · next hroot => exact (Reachable.new _).root (.inr ⟨_, hroot⟩)

/-- Two children that change no bound. -/
def fork : BranchingDecision (Exact ℚ) where
  children := [{ changes := [], estimate := 0 }, { changes := [], estimate := 0 }]

/-- The root was split twice, and has been removed with the children of the second split. -/
def orphaned : SearchTree (Exact ℚ) := after [.popNext fun _ => false, .pushChildren 0 fork 0 none,
  .pushChildren 0 fork 0 none, .prune 3 .infeasible, .prune 4 .infeasible] planted

/-- The nodes that are there, those that have been removed, and how many numbers have been given out. -/
def seen (t : SearchTree (Exact ℚ)) : List NodeId × List NodeId × Nat := (t.nodes.keys, t.released, t.nextId)

/-- The children of the first split are there; the removal of one misses the root. -/
theorem orphaned_fails : ∃ e u, (Request.prune 1 .infeasible).run orphaned = .error e u ∧
    orphaned.seen = ([1, 2], [0, 4, 3], 5) ∧ u.seen = ([2], [1, 0, 4, 3], 5) := by
  have hrun : Ensures (Request.prune 1 .infeasible).run orphaned (fun _ _ => False)
      fun _ u => orphaned.seen = ([1, 2], [0, 4, 3], 5) ∧ u.seen = ([2], [1, 0, 4, 3], 5) := by
    decide +kernel
  exact hrun.exists_fails

/-- A node that lost its parent is removed by a call that fails. -/
theorem request_failing_orphaned : ∃ e u, (Request.prune 1 .infeasible).run orphaned = .error e u ∧
    ∃ ns p, orphaned.Strands 1 ns p ∧ orphaned.Cuts u ns := by
  obtain ⟨e, u, hfails, ht, hu⟩ := orphaned_fails
  refine ⟨e, u, hfails, ?_⟩
  rcases Reachable.request_failing (planted_reachable.after _) hfails with
    rfl | ⟨_, _, _, _, hr, -⟩ | ⟨_, _, ns, p, hr, hns, hcuts, -⟩
  · exact absurd (ht.symm.trans hu) (by decide)
  · cases hr
  · cases hr
    exact ⟨ns, p, hns, hcuts⟩

/-- A split of a node that is not there does not leave the count of the nodes as it was. -/
theorem failing_split_takes_numbers : ¬ ∀ t : SearchTree (Exact ℚ), t.Reachable → ∀ (r : Request (Exact ℚ)) e u,
    r.run t = .error e u → (∀ n, u.node? n = t.node? n) ∧ u.released = t.released ∧ Retains t u := by
  intro h
  have hrun : Ensures (Request.pushChildren 7 fork 0 none).run planted (fun _ _ => False)
      fun _ u => u.nextId ≠ planted.nextId := by
    decide +kernel
  obtain ⟨e, u, hfails, hnextId⟩ := hrun.exists_fails
  exact hnextId (h planted planted_reachable _ e u hfails).2.2.nextId

end BranchAndCut.SearchTree

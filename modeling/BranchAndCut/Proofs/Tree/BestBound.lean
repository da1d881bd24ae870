import BranchAndCut.Proofs.Order
import BranchAndCut.Proofs.Tree.Children
import BranchAndCut.Proofs.Tree.HeapOrder

/-! # The bound of the remaining work

Outdated keys stay in the heap by bounds, but no number is given twice. So the key of an
open node carries the bound of that node, and the lowest bound of the tree is that of a
node which is open or unresolved, as long as there is one. -/

namespace BranchAndCut

variable {K : Type} [Scalar K]

namespace Queue

variable {q q' : Queue K} {next : NodeId}

/-- The keys by bound belong to numbers below `next`, and those of open nodes are current. -/
def Dated (q : Queue K) (next : NodeId) : Prop :=
  ∀ k ∈ q.byBound.heap.toList, k.id < next ∧ ∀ e, q.members[k.id]? = some e → k.first = e.bound

/-- What a queue without new nodes and keys has. -/
structure Shrinks (q q' : Queue K) : Prop where
  keys : ∀ k ∈ q'.byBound.heap.toList, k ∈ q.byBound.heap.toList
  members : ∀ (id : NodeId) (e : OpenNode K), q'.members[id]? = some e → q.members[id]? = some e

omit [Scalar K] in
theorem Dated.shrinks (h : q.Dated next) (hs : q.Shrinks q') : q'.Dated next := fun k hk =>
  ⟨(h k (hs.keys k hk)).1, fun e he => (h k (hs.keys k hk)).2 e (hs.members _ e he)⟩

omit [Scalar K] in
theorem Dated.mono (h : q.Dated next) {next' : NodeId} (hle : next ≤ next') : q.Dated next' := fun k hk =>
  ⟨Nat.lt_of_lt_of_le (h k hk).1 hle, (h k hk).2⟩

theorem Dated.push (h : q.Dated next) (bound estimate : K) (depth : Nat) :
    (q.push next bound estimate depth).Dated (next + 1) := by
  intro k hk
  have hmem : k = { first := bound, second := 0, id := next } ∨ k ∈ q.byBound.heap.toList :=
    List.mem_cons.mp ((Heap.insert_perm q.byBound.heap _).mem_iff.mp hk)
  rcases hmem with rfl | hold
  · refine ⟨Nat.lt_succ_self _, fun e he => ?_⟩
    change (q.members.insert next _)[next]? = some e at he
    rw [Std.TreeMap.getElem?_insert_self] at he
    exact (Option.some.inj he) ▸ rfl
  · obtain ⟨hlt, hcurrent⟩ := h k hold
    refine ⟨Nat.lt_succ_of_lt hlt, fun e he => hcurrent e ?_⟩
    change (q.members.insert next _)[k.id]? = some e at he
    rw [Std.TreeMap.getElem?_insert, if_neg] at he
    · exact he
    · exact fun heq => Nat.ne_of_gt hlt (Nat.compare_eq_eq.mp heq)

/-! ## Taking out nodes and keys -/

/-- What is left at the front once the outdated keys are dropped. -/
theorem dropStale_bound {members : Std.TreeMap NodeId (OpenNode K)} {h : SizedHeap K} {fuel : Nat} {b : K}
    (hb : (dropStale members h fuel).1 = some b) : ∃ k ∈ h.heap.toList, k.id ∈ members ∧ k.first = b := by
  induction fuel generalizing h with
  | zero => cases hb
  | succ fuel ih =>
    unfold dropStale at hb
    cases hpop : h.heap.pop? with
    | none =>
      rw [hpop] at hb
      cases hb
    | some popped =>
      obtain ⟨key, heap⟩ := popped
      rw [hpop] at hb
      dsimp only at hb
      have hmem : ∀ k, k ∈ h.heap.toList ↔ k ∈ key :: heap.toList := fun k =>
        (Heap.pop?_perm hpop).mem_iff
      split at hb
      · next hopen =>
        exact ⟨key, (hmem key).mpr List.mem_cons_self, Std.TreeMap.mem_iff_contains.mpr hopen,
          Option.some.inj hb⟩
      · obtain ⟨k, hk, hfirst⟩ := ih hb
        exact ⟨k, (hmem k).mpr (List.mem_cons_of_mem _ hk), hfirst⟩

omit [Scalar K] in
/-- A queue whose heaps shed keys and which has no new nodes. -/
theorem Sheds.shrinks (h : q.Sheds q')
    (hmembers : ∀ (id : NodeId) (e : OpenNode K), q'.members[id]? = some e → q.members[id]? = some e) :
    q.Shrinks q' :=
  ⟨fun _ hk => h.byBound.subset hk, hmembers⟩

theorem pop_shrinks (q : Queue K) : q.Shrinks q.pop.2 := by
  refine (pop_sheds q).shrinks fun n e he => ?_
  rcases pop_cases q with hpop | ⟨-, hpop⟩ | ⟨id, -, hpop⟩
  · rwa [hpop] at he
  · rwa [hpop, (pick_keeps q).1] at he
  · rw [hpop, compact_members] at he
    exact (pick_keeps q).1 ▸ getElem?_of_erase he

theorem prune_shrinks (q : Queue K) (prunable : K → Bool) : q.Shrinks (q.prune prunable).2 := by
  refine (prune_sheds q prunable).shrinks fun n e he => ?_
  rw [show (q.prune prunable).2.members = (q.prune prunable).1.foldl (fun m n => m.erase n) q.members
    from compact_members _, getElem?_foldl_erase] at he
  split at he
  · cases he
  · exact he

theorem bestBound_shrinks (q : Queue K) : q.Shrinks q.bestBound.2 :=
  (bestBound_sheds q).shrinks fun _ _ => id

/-- **The best bound is that of an open node**, unless it is infinite. -/
theorem Dated.bestBound (h : q.Dated next) :
    q.bestBound.1 = Scalar.inf ∨ ∃ (id : NodeId) (e : OpenNode K), q.members[id]? = some e ∧ q.bestBound.1 = e.bound := by
  unfold Queue.bestBound
  dsimp only
  cases hbound : (dropStale q.members q.byBound (q.byBound.size + 1)).1 with
  | none => exact .inl rfl
  | some b =>
    obtain ⟨k, hk, hmem, rfl⟩ := dropStale_bound hbound
    rw [Std.TreeMap.mem_iff_isSome_getElem?, Option.isSome_iff_exists] at hmem
    obtain ⟨e, he⟩ := hmem
    exact .inr ⟨k.id, e, he, (h k hk).2 e he⟩

end Queue

namespace SearchTree

variable {t u : SearchTree K}

/-! ## Operations of the tree -/

/-- The keys by bound are those of nodes created before. -/
def Dated (t : SearchTree K) : Prop := t.queue.Dated t.nextId

omit [Scalar K] in
theorem Dated.congr (h : t.Dated) (hqueue : u.queue = t.queue) (hnext : u.nextId = t.nextId) : u.Dated := by
  unfold Dated
  rw [hqueue, hnext]
  exact h

omit [Scalar K] in
theorem new_dated (selection : NodeSelection) : (new selection : SearchTree K).Dated := nofun

omit [Scalar K] in
theorem Dated.modifyNode (h : t.Dated) (id : NodeId) (f : Node K → Node K) : (t.modifyNode id f).Dated := by
  unfold SearchTree.modifyNode
  split <;> exact h

omit [Scalar K] in
theorem Dated.removeUpwards (h : t.Dated) (id : NodeId) (fuel : Nat) :
    Ensures (removeUpwards (K := K) id fuel) t (fun _ u => u.Dated) fun _ u => u.Dated := by
  induction fuel generalizing t id with
  | zero => exact .throw h
  | succ fuel ih =>
    unfold SearchTree.removeUpwards
    refine .bind (.get ?_)
    split
    · exact .throw h
    · split
      · refine .bind (.set ?_)
        split
        · exact .pure h
        · split
          · exact .throw h
          · exact .bind (.set (ih (t := (t.remove id).setNode _) h _))
      · exact .pure h

omit [Scalar K] in
theorem Dated.close (h : t.Dated) (id : NodeId) (status : NodeStatus) :
    Ensures (close (K := K) id status) t (fun _ u => u.Dated) fun _ u => u.Dated := by
  unfold SearchTree.close
  refine .bind (.get ?_)
  split
  · exact .throw h
  · exact .bind (.set (Dated.removeUpwards (t := t.setNode _) h _ _))

theorem Dated.popLoop (h : t.Dated) (prunable : K → Bool) (fuel : Nat) :
    Ensures (popLoop prunable fuel) t (fun _ u => u.Dated) fun _ u => u.Dated := by
  induction fuel generalizing t with
  | zero => exact .pure h
  | succ fuel ih =>
    have hpop : t.queue.pop.2.Dated t.nextId := h.shrinks (Queue.pop_shrinks t.queue)
    unfold SearchTree.popLoop
    refine .bind (.get ?_)
    split
    · next heq =>
      rw [heq] at hpop
      exact .bind (.set (.pure hpop))
    · next queue heq =>
      rw [heq] at hpop
      refine .bind (.set ?_)
      split
      · exact .throw hpop
      · split
        · refine .bind (.set (.bind ?_))
          exact (Dated.close (t := { t with queue, prunedByBound := t.prunedByBound + 1 }) hpop _ _).mono
            (fun _ u hu => ih hu) fun _ _ hfail => hfail
        · exact .bind (.set (.pure hpop))

theorem Dated.popNext (h : t.Dated) (prunable : K → Bool) :
    Ensures (popNext prunable) t (fun _ u => u.Dated) fun _ u => u.Dated :=
  .bind (.get (h.popLoop prunable _))

theorem Dated.pruneDominated (h : t.Dated) (prunable : K → Bool) :
    Ensures (pruneDominated prunable) t (fun _ u => u.Dated) fun _ u => u.Dated := by
  have hprune : Dated { t with queue := (t.queue.prune prunable).2 } :=
    Queue.Dated.shrinks h (Queue.prune_shrinks t.queue prunable)
  unfold SearchTree.pruneDominated
  refine .bind (.modifyGet (.bind ?_))
  refine (Ensures.forM (I := fun _ u => u.Dated) (fun id _ u hu => hu.close id _) hprune).mono ?_
    fun _ _ hfail => hfail
  exact fun _ u hu => .bind (.modify (.pure hu))

theorem foldl_addChild_dated (f : NodeId → ChildSpec K → Node K) (hid : ∀ n spec, (f n spec).id = n)
    (specs : List (ChildSpec K)) (first k : Nat) (t : SearchTree K) (h : t.queue.Dated (first + k)) :
    let children := (specs.zipIdx k).map fun (spec, k) => f (first + k) spec
    (children.foldl addChild t).queue.Dated (first + (k + specs.length)) ∧
      (children.foldl addChild t).nextId = t.nextId := by
  induction specs generalizing k t with
  | nil => exact ⟨h, rfl⟩
  | cons spec specs ih =>
    have hadd : (t.addChild (f (first + k) spec)).queue.Dated (first + (k + 1)) := by
      have hpush := h.push (f (first + k) spec).dualBound (f (first + k) spec).estimate
        (f (first + k) spec).depth
      unfold addChild
      rw [hid]
      exact hpush
    obtain ⟨hrest, hnext⟩ := ih (k + 1) _ hadd
    refine ⟨?_, hnext⟩
    have hlength : k + (spec :: specs).length = k + 1 + specs.length := by
      rw [List.length_cons]
      omega
    rw [hlength]
    exact hrest

theorem Dated.pushChildren (h : t.Dated) (id : NodeId) (d : BranchingDecision K) (objective : K)
    (basis : Option SavedBasis) :
    Ensures (pushChildren id d objective basis) t (fun _ u => u.Dated) fun _ _ => True := by
  unfold SearchTree.pushChildren
  dsimp only
  by_cases hfew : d.children.length < 2
  · rw [if_pos hfew]
    exact .bind (.throw trivial)
  · rw [if_neg hfew]
    refine .bind (.get (.bind (.modify (.bind (.get ?_)))))
    split
    · exact .throw trivial
    · next n _ =>
      obtain ⟨hqueue, hnext⟩ := foldl_addChild_dated (childOf n d objective) (childOf_id n d objective)
        d.children t.nextId 0 { t with nextId := t.nextId + d.children.length } h
      have hadd : (List.foldl addChild { t with nextId := t.nextId + d.children.length }
          (d.children.zipIdx.map fun (spec, k) => childOf n d objective (t.nextId + k) spec)).Dated := by
        unfold Dated
        rw [hnext]
        rw [Nat.zero_add] at hqueue
        exact hqueue
      exact .bind (.set (.pure (hadd.modifyNode _ _)))

omit [Scalar K] in
theorem Dated.markUnresolved (h : t.Dated) (id : NodeId) :
    Ensures (markUnresolved (K := K) id) t (fun _ u => u.Dated) fun _ u => u.Dated := by
  unfold SearchTree.markUnresolved
  refine .bind (.get ?_)
  split
  · exact .throw h
  · exact .set h

omit [Scalar K] in
theorem Dated.recordChanges (h : t.Dated) (id : NodeId) (changes : List (BoundChange K)) :
    Ensures (recordChanges id changes) t (fun _ u => u.Dated) fun _ u => u.Dated := by
  unfold SearchTree.recordChanges
  refine .bind (.get ?_)
  split
  · exact .throw h
  · exact .set h

theorem Dated.createRoot (h : t.Dated) (bound : K) :
    Ensures (createRoot bound) t (fun _ u => u.Dated) fun _ u => u.Dated := by
  unfold SearchTree.createRoot
  refine .bind (.get ?_)
  dsimp only
  split
  · exact .bind (.throw h)
  · exact .bind (.set (.pure (Queue.Dated.push h bound bound 0)))

/-! ## The lowest bound -/

/-- The node is still to be worked on, or kept for its bound. -/
def Remains (t : SearchTree K) (n : NodeId) (node : Node K) : Prop :=
  t.node? n = some node ∧ (node.status = .open ∨ node.status = .unresolved)

theorem foldl_min_cases (nodes : List (Node K)) (m : K) :
    nodes.foldl (fun m n => Scalar.min m n.dualBound) m = m ∨
      ∃ n ∈ nodes, nodes.foldl (fun m n => Scalar.min m n.dualBound) m = n.dualBound := by
  induction nodes generalizing m with
  | nil => exact .inl rfl
  | cons n nodes ih =>
    rw [List.foldl_cons]
    rcases ih (Scalar.min m n.dualBound) with heq | ⟨x, hx, heq⟩
    · rw [heq]
      exact (Scalar.min_cases m n.dualBound).imp id fun h => ⟨n, List.mem_cons_self, h⟩
    · exact .inr ⟨x, List.mem_cons_of_mem _ hx, heq⟩

/-- **The lowest bound is that of a remaining node**, unless it is infinite. -/
theorem Wf.lowestBound (h : t.Wf fun _ => False) (hdated : t.Dated) :
    t.lowestBound.1 = Scalar.inf ∨ ∃ n node, t.Remains n node ∧ t.lowestBound.1 = node.dualBound := by
  rcases Scalar.min_cases t.queue.bestBound.1 ((t.unresolved.reverse.filterMap t.node?).foldl
    (fun m n => Scalar.min m n.dualBound) Scalar.inf) with hbest | hkept
  · refine (Queue.Dated.bestBound hdated).imp hbest.trans fun ⟨id, e, he, hbound⟩ => ?_
    obtain ⟨node, hn, hopen⟩ := h.isOpen (Std.TreeMap.mem_iff_isSome_getElem?.mpr (by rw [he]; rfl))
    obtain ⟨e', he', hsame⟩ := h.queued hn hopen not_false
    obtain rfl := Option.some.inj (he.symm.trans he')
    exact ⟨id, node, ⟨hn, .inl hopen⟩, hbest.trans (hbound.trans hsame)⟩
  · refine (foldl_min_cases _ _).imp hkept.trans fun ⟨node, hmem, hbound⟩ => ?_
    obtain ⟨n, hn, hnode⟩ := List.mem_filterMap.mp hmem
    obtain ⟨node', hnode', hstatus⟩ := h.listed.mp (List.mem_reverse.mp hn)
    obtain rfl := Option.some.inj (hnode.symm.trans hnode')
    exact ⟨n, node, ⟨hnode, .inr hstatus⟩, hkept.trans hbound⟩

theorem Wf.lowestBound_wf (h : t.Wf fun _ => False) : t.lowestBound.2.Wf fun _ => False := by
  obtain ⟨hmembers, hqueue⟩ := Queue.bestBound_spec h.queue
  exact h.withQueue hqueue (fun hm => hmembers ▸ hm) (fun he _ => hmembers.symm ▸ he) fun _ ho => ho

theorem Dated.lowestBound_dated (h : t.Dated) : t.lowestBound.2.Dated :=
  Queue.Dated.shrinks h (Queue.bestBound_shrinks t.queue)

end SearchTree

end BranchAndCut

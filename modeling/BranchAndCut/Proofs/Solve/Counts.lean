import BranchAndCut.Proofs.Solve.Bounds
import BranchAndCut.Proofs.Solve.Processing
import BranchAndCut.Proofs.Solve.Splitting
import BranchAndCut.Proofs.Tree.Depth

/-! # Every node is counted once

A node that was created waits in the queue, was closed there because of its bound, or was
taken up. A node that was taken up was split, closed or kept, or is being processed. Each is
counted where it happens, in the tree or at the node, so the counts of a run add up. -/

namespace BranchAndCut

variable {K σ : Type} [Scalar K]

/-! ## The tree -/

namespace SearchTree

variable {t u : SearchTree K} {taken : Nat}

/-- Every node created is open, was closed in the queue or was taken up. -/
structure Tallied (t : SearchTree K) (taken : Nat) : Prop where
  queue : t.queue.Wf
  fresh : ∀ id, id ∈ t.queue.members → id < t.nextId
  total : t.nextId = taken + t.prunedByBound + t.numOpen

omit [Scalar K] in
theorem Tallied.retains (h : t.Tallied taken) (hr : Retains t u) : u.Tallied taken := by
  refine ⟨hr.queue ▸ h.queue, ?_, ?_⟩
  · rw [hr.queue, hr.nextId]
    exact h.fresh
  · unfold numOpen
    rw [hr.nextId, hr.prunedByBound, hr.queue]
    exact h.total

omit [Scalar K] in
theorem new_tallied (selection : NodeSelection) : (new selection : SearchTree K).Tallied 0 :=
  ⟨Queue.new_wf selection, fun _ hid => (Std.TreeMap.not_mem_emptyc hid).elim, rfl⟩

/-- What happens to the queue keeps the numbers given and the unresolved nodes. -/
def Same (t u : SearchTree K) : Prop := u.nextId = t.nextId ∧ u.unresolved = t.unresolved

omit [Scalar K] in
theorem Retains.same (h : Retains t u) : Same t u := ⟨h.nextId, h.unresolved⟩

omit [Scalar K] in
theorem Same.trans {v : SearchTree K} (h : Same t u) (h' : Same u v) : Same t v :=
  ⟨h'.1.trans h.1, h'.2.trans h.2⟩

/-- **Taking the next node**: those closed on the way are counted in the tree. -/
theorem Tallied.popLoop (h : t.Tallied taken) (prunable : K → Bool) (fuel : Nat) :
    Ensures (popLoop prunable fuel) t (fun next u => u.Tallied (taken + next.toList.length) ∧ Same t u)
      fun _ _ => True := by
  induction fuel generalizing t with
  | zero => exact .pure ⟨h, rfl, rfl⟩
  | succ fuel ih =>
    obtain ⟨hmem, hsize⟩ := Queue.pop_size h.queue
    have hwf : t.queue.pop.2.Wf := by
      have hpop := Queue.pop_spec h.queue
      split at hpop
      · next heq => exact heq ▸ hpop.2.2
      · next heq => exact heq ▸ hpop.2.2
    have htotal := h.total
    unfold SearchTree.popLoop
    refine .bind (.get ?_)
    cases hpop : t.queue.pop with
    | mk next queue =>
      rw [hpop] at hmem hsize hwf
      have hfresh : ∀ id, id ∈ queue.members → id < t.nextId := fun id hid => h.fresh id (hmem id hid)
      change queue.size + next.toList.length = t.numOpen at hsize
      cases next with
      | none => exact .bind (.set (.pure ⟨⟨hwf, hfresh, htotal.trans (by rw [← hsize]; rfl)⟩, rfl, rfl⟩))
      | some id =>
        simp only [Option.toList_some, List.length_singleton] at hsize ⊢
        refine .bind (.set ?_)
        split
        · exact .throw trivial
        · split
          · -- one open node less, one more closed by its bound
            have hcounted : Tallied { t with queue, prunedByBound := t.prunedByBound + 1 } taken := by
              refine ⟨hwf, hfresh, ?_⟩
              show t.nextId = taken + (t.prunedByBound + 1) + queue.size
              omega
            refine .bind (.set (.bind ((close_retains id _ _).mono (fun _ u hu => ?_) fun _ _ _ => trivial)))
            refine (ih (hcounted.retains hu)).mono (fun next v hv => ⟨hv.1, ?_⟩) fun _ _ _ => trivial
            exact Same.trans (u := { t with queue, prunedByBound := t.prunedByBound + 1 }) ⟨rfl, rfl⟩
              (hu.same.trans hv.2)
          · refine .bind (.set (.pure ⟨⟨hwf, hfresh, ?_⟩, rfl, rfl⟩))
            show t.nextId = taken + 1 + t.prunedByBound + queue.size
            omega

theorem Tallied.popNext (h : t.Tallied taken) (prunable : K → Bool) :
    Ensures (popNext prunable) t (fun next u => u.Tallied (taken + next.toList.length) ∧ Same t u)
      fun _ _ => True :=
  .bind (.get (h.popLoop prunable _))

/-- Closing the dominated nodes. -/
theorem Tallied.pruneDominated (h : t.Tallied taken) (prunable : K → Bool) :
    Ensures (pruneDominated prunable) t (fun _ u => u.Tallied taken ∧ Same t u) fun _ _ => True := by
  obtain ⟨hmem, hsize⟩ := Queue.prune_size h.queue prunable
  unfold SearchTree.pruneDominated
  refine .bind (.modifyGet ?_)
  cases hprune : t.queue.prune prunable with
  | mk removed queue =>
    have hwf : queue.Wf := by
      have hspec := (Queue.prune_spec h.queue prunable).2.2
      rwa [hprune] at hspec
    rw [hprune] at hmem hsize
    change queue.size + removed.length = t.numOpen at hsize
    refine .bind ((Ensures.forM (I := fun _ u => Retains { t with queue } u) (fun id _ u hu => ?_)
      (.refl _)).mono (fun _ u hu => ?_) fun _ _ => id)
    · exact (close_retains id _ u).mono (fun _ _ => hu.trans) fun _ _ _ => trivial
    · refine .bind (.modify (.pure ⟨⟨hu.queue ▸ hwf, ?_, ?_⟩, hu.nextId, hu.unresolved⟩))
      · rw [hu.queue, hu.nextId]
        exact fun id hid => h.fresh id (hmem id hid)
      · show u.nextId = taken + (u.prunedByBound + removed.length) + u.queue.size
        have htotal := h.total
        rw [hu.nextId, hu.prunedByBound, hu.queue]
        show t.nextId = taken + (t.prunedByBound + removed.length) + queue.size
        omega

/-- The children of a node, one after the other. -/
theorem foldl_addChild_size (build : NodeId → ChildSpec K → Node K) (hbuild : ∀ id spec, (build id spec).id = id)
    (specs : List (ChildSpec K)) (first k : Nat) (t : SearchTree K) (hqueue : t.queue.Wf)
    (hfresh : ∀ id : Nat, id ∈ t.queue.members → id < first + k) :
    let u := ((specs.zipIdx k).map fun (spec, k) => build (first + k) spec).foldl addChild t
    u.queue.Wf ∧ (∀ id : Nat, id ∈ u.queue.members → id < first + (k + specs.length)) ∧
      u.numOpen = t.numOpen + specs.length ∧ u.prunedByBound = t.prunedByBound ∧ Same t u := by
  induction specs generalizing k t with
  | nil => exact ⟨hqueue, hfresh, rfl, rfl, rfl, rfl⟩
  | cons spec specs ih =>
    have hid := hbuild (first + k) spec
    have hnew : first + k ∉ t.queue.members := fun hmem => Nat.lt_irrefl _ (hfresh _ hmem)
    have hwf : (t.addChild (build (first + k) spec)).queue.Wf := Queue.push_wf hqueue ..
    have hfresh' : ∀ id : Nat, id ∈ (t.addChild (build (first + k) spec)).queue.members → id < first + (k + 1) := by
      intro id hmem
      change id ∈ t.queue.members.insert (build (first + k) spec).id _ at hmem
      rw [hid, Std.TreeMap.mem_insert] at hmem
      rcases hmem with heq | hold
      · have heq : first + k = id := Nat.compare_eq_eq.mp heq
        omega
      · have hlt := hfresh id hold
        omega
    have hsize : (t.addChild (build (first + k) spec)).numOpen = t.numOpen + 1 :=
      Queue.push_size (hid.symm ▸ hnew) ..
    obtain ⟨hu, hmem, hopen, hpruned, hsame⟩ := ih (k + 1) _ hwf hfresh'
    refine ⟨hu, fun id hid => ?_, ?_, hpruned, hsame⟩
    · have hlt := hmem id hid
      simp only [List.length_cons]
      omega
    · refine hopen.trans ?_
      simp only [List.length_cons]
      omega

/-- **Splitting a node** creates its children, two at least, which are all open. -/
theorem Tallied.pushChildren (h : t.Tallied taken) (id : NodeId) (d : BranchingDecision K) (objective : K)
    (basis : Option SavedBasis) : Ensures (pushChildren id d objective basis) t
      (fun _ u => u.Tallied taken ∧ 2 ≤ d.children.length ∧ u.nextId = t.nextId + d.children.length ∧
        u.unresolved = t.unresolved) fun _ _ => True := by
  by_cases hmany : 2 ≤ d.children.length
  · cases hn : t.node? id with
    | none =>
      unfold SearchTree.pushChildren
      rw [if_neg (Nat.not_lt_of_le hmany)]
      refine .bind (.get (.bind (.modify (.bind (.get ?_)))))
      dsimp only
      rw [show node? { t with nextId := t.nextId + d.children.length } id = none from hn]
      exact .throw trivial
    | some node =>
      have hret := pushChildren_at hn hmany objective basis
      obtain ⟨hwf, hmem, hopen, hpruned, hnext, hunresolved⟩ := foldl_addChild_size (childOf node d objective)
        (childOf_id node d objective) d.children t.nextId 0 { t with nextId := t.nextId + d.children.length }
        h.queue h.fresh
      dsimp only [Nat.add_zero] at hret hwf hmem hopen hpruned hnext hunresolved
      generalize hv : List.foldl addChild { t with nextId := t.nextId + d.children.length }
        (d.children.zipIdx.map fun x => childOf node d objective (t.nextId + x.2) x.1) = v
        at hret hwf hmem hopen hpruned hnext hunresolved
      rw [Nat.zero_add] at hmem
      have hfilled : v.Tallied taken := by
        refine ⟨hwf, fun id hid => hnext ▸ hmem id hid, ?_⟩
        have htotal := h.total
        change v.numOpen = t.numOpen + _ at hopen
        omega
      have hmarked := modifyNode_retains v id fun x => { x with
        status := .branched, liveChildren := d.children.length, basis }
      obtain ⟨hqueue, hfresh, htotal⟩ := hfilled.retains hmarked
      refine .of_returns hret ⟨⟨⟨hqueue.byBound, hqueue.byDepth, hqueue.byEstimate⟩, hfresh, htotal⟩, hmany, ?_, ?_⟩
      · exact hmarked.nextId.trans hnext
      · exact hmarked.unresolved.trans hunresolved
  · unfold SearchTree.pushChildren
    rw [if_pos (Nat.lt_of_not_le hmany)]
    exact .bind (.throw trivial)

omit [Scalar K] in
theorem Tallied.markUnresolved (h : t.Tallied taken) (id : NodeId) : Ensures (markUnresolved (K := K) id) t
    (fun _ u => u.Tallied taken ∧ u.nextId = t.nextId ∧ u.numUnresolved = t.numUnresolved + 1) fun _ _ => True := by
  unfold SearchTree.markUnresolved
  refine .bind (.get ?_)
  split
  · exact .throw trivial
  · exact .set ⟨⟨h.queue, h.fresh, h.total⟩, rfl, rfl⟩

theorem Tallied.createRoot (h : t.Tallied taken) (bound : K) : Ensures (createRoot bound) t
    (fun _ u => u.Tallied taken ∧ u.nextId = t.nextId + 1 ∧ u.unresolved = t.unresolved) fun _ _ => True := by
  have hnew : t.nextId ∉ t.queue.members := fun hmem => Nat.lt_irrefl _ (h.fresh _ hmem)
  unfold SearchTree.createRoot
  refine .bind (.get ?_)
  dsimp only
  split
  · exact .bind (.throw trivial)
  · refine .bind (.set (.pure ⟨⟨Queue.push_wf h.queue .., fun id hid => ?_, ?_⟩, rfl, rfl⟩))
    · change id ∈ t.queue.members.insert t.nextId _ at hid
      rcases Std.TreeMap.mem_insert.mp hid with heq | hold
      · exact Nat.lt_succ_of_le (Nat.le_of_eq (Nat.compare_eq_eq.mp heq).symm)
      · exact Nat.lt_succ_of_lt (h.fresh id hold)
    · show t.nextId + 1 = taken + t.prunedByBound + (t.queue.push t.nextId bound bound 0).size
      have htotal := h.total
      rw [Queue.push_size hnew]
      unfold numOpen at htotal
      omega

theorem Tallied.lowestBound (h : t.Tallied taken) : t.lowestBound.2.Tallied taken ∧ Same t t.lowestBound.2 := by
  obtain ⟨hmembers, hwf⟩ := Queue.bestBound_spec h.queue
  refine ⟨⟨hwf, fun id hid => h.fresh id (hmembers ▸ hid), h.total.trans ?_⟩, rfl, rfl⟩
  show _ = taken + t.prunedByBound + t.queue.bestBound.2.members.size
  rw [hmembers]
  rfl

end SearchTree

namespace Search

variable {sv : Solver K σ} {s₀ s t : Search K σ} {id : NodeId} {k : Nat}

/-! ## One node -/

/-- Tree, node counts and custom families stay. -/
structure Idle (s t : Search K σ) : Prop where
  tree : t.tree = s.tree
  nodesProcessed : t.stats.nodesProcessed = s.stats.nodesProcessed
  nodesBranched : t.stats.nodesBranched = s.stats.nodesBranched
  nodesPruned : t.stats.nodesPruned = s.stats.nodesPruned
  custom : t.handlers.custom = s.handlers.custom

omit [Scalar K] in
theorem Clerical.idle (h : s.Clerical t) : s.Idle t := by
  unfold Clerical at h
  exact ⟨by rw [h], by rw [h], by rw [h], by rw [h], by rw [h]⟩

theorem evolves_idle : Evolves sv Idle where
  clerical h := h.idle
  trans h h' := ⟨h'.tree.trans h.tree, h'.nodesProcessed.trans h.nodesProcessed,
    h'.nodesBranched.trans h.nodesBranched, h'.nodesPruned.trans h.nodesPruned, h'.custom.trans h.custom⟩
  restore _ := ⟨rfl, rfl, rfl, rfl, rfl⟩
  switchPath _ _ := ⟨rfl, rfl, rfl, rfl, rfl⟩
  propagate s := by
    unfold Ensures
    split <;> exact ⟨rfl, rfl, rfl, rfl, rfl⟩
  updateActivity _ _ := ⟨rfl, rfl, rfl, rfl, rfl⟩
  separateInactive _ _ _ := ⟨rfl, rfl, rfl, rfl, rfl⟩
  addCut _ _ := ⟨rfl, rfl, rfl, rfl, rfl⟩
  addRow _ _ _ := ⟨rfl, rfl, rfl, rfl, rfl⟩
  register _ := ⟨rfl, rfl, rfl, rfl, rfl⟩
  lockCons _ _ _ := ⟨rfl, rfl, rfl, rfl, rfl⟩
  addVar _ := fun _ => ⟨rfl, rfl, rfl, rfl, rfl⟩
  addCoefficient _ s h c v a := (s.handlers.addCoefficient_custom s.world h c v a).mono
    (fun _ _ hcustom => ⟨rfl, rfl, rfl, rfl, hcustom⟩) fun _ _ hcustom => ⟨rfl, rfl, rfl, rfl, hcustom⟩
  releaseNode _ _ := ⟨rfl, rfl, rfl, rfl, rfl⟩
  delete s h c := ⟨rfl, rfl, rfl, rfl, s.handlers.delete_custom s.world h c⟩

/-- Every node created is counted, and so is every node taken up, apart from some that are
being processed or have ended the search. -/
structure Counted (s : Search K σ) (k : Nat) : Prop where
  tallied : s.tree.Tallied s.stats.nodesProcessed
  taken : s.stats.nodesProcessed = s.stats.nodesBranched + s.stats.nodesPruned + s.tree.numUnresolved + k

omit [Scalar K] in
theorem Counted.idle (h : s.Counted k) (ht : s.Idle t) : t.Counted k := by
  refine ⟨?_, ?_⟩
  · rw [ht.tree, ht.nodesProcessed]
    exact h.tallied
  · rw [ht.tree, ht.nodesProcessed, ht.nodesBranched, ht.nodesPruned]
    exact h.taken

/-- No node was created or branched, and no family added. -/
structure Unbranched (s₀ s : Search K σ) : Prop where
  nextId : s.tree.nextId = s₀.tree.nextId
  nodesBranched : s.stats.nodesBranched = s₀.stats.nodesBranched
  custom : s.handlers.custom = s₀.handlers.custom

/-- One node was branched into some number of children. -/
structure Branched (s₀ s : Search K σ) : Prop where
  nextId : s₀.tree.nextId + 2 ≤ s.tree.nextId
  nodesBranched : s.stats.nodesBranched = s₀.stats.nodesBranched + 1
  custom : s.handlers.custom = s₀.handlers.custom
  builtIn : s₀.handlers.custom = #[] → s.tree.nextId = s₀.tree.nextId + 2

omit [Scalar K] in
theorem Unbranched.idle (h : s₀.Unbranched s) (ht : s.Idle t) : s₀.Unbranched t :=
  ⟨(congrArg SearchTree.nextId ht.tree).trans h.nextId, ht.nodesBranched.trans h.nodesBranched,
    ht.custom.trans h.custom⟩

omit [Scalar K] in
theorem Branched.idle (h : s₀.Branched s) (ht : s.Idle t) : s₀.Branched t := by
  have hnext := congrArg SearchTree.nextId ht.tree
  exact ⟨hnext ▸ h.nextId, ht.nodesBranched.trans h.nodesBranched, ht.custom.trans h.custom,
    fun hbuiltIn => hnext.trans (h.builtIn hbuiltIn)⟩

/-- A node is being processed, and is not done with. -/
structure Working (s₀ s : Search K σ) : Prop where
  counted : s.Counted 1
  unbranched : s₀.Unbranched s

/-- What is left to count after a node. -/
def NodeResult.rest : NodeResult → Nat
  | .unbounded => 1
  | .continue => 0

/-- A node is done with. -/
def Finished (s₀ : Search K σ) (result : NodeResult) (s : Search K σ) : Prop :=
  s.Counted result.rest ∧ (s₀.Unbranched s ∨ s₀.Branched s)

omit [Scalar K] in
theorem Working.idle (h : s₀.Working s) (ht : s.Idle t) : s₀.Working t :=
  ⟨h.counted.idle ht, h.unbranched.idle ht⟩

omit [Scalar K] in
theorem Finished.idle {result : NodeResult} (h : s₀.Finished result s) (ht : s.Idle t) : s₀.Finished result t :=
  ⟨h.1.idle ht, h.2.imp (·.idle ht) (·.idle ht)⟩

omit [Scalar K] in
theorem Working.along {α : Type} (h : s₀.Working s) {m : SearchM K σ α} (hm : Preserves Idle m) :
    Ensures m s (fun _ t => s₀.Working t) fun _ _ => True :=
  (hm s).mono (fun _ _ => h.idle) fun _ _ _ => trivial

omit [Scalar K] in
theorem Working.withTree (h : s₀.Working s) {u : SearchTree K} (hu : u.Tallied s.stats.nodesProcessed)
    (hsame : SearchTree.Same s.tree u) : s₀.Working { s with tree := u } := by
  refine ⟨⟨hu, h.counted.taken.trans ?_⟩, hsame.1.trans h.unbranched.nextId, h.unbranched.nodesBranched,
    h.unbranched.custom⟩
  show _ = s.stats.nodesBranched + s.stats.nodesPruned + u.unresolved.length + 1
  rw [hsame.2]
  rfl

omit [Scalar K] in
theorem Working.retains (h : s₀.Working s) {u : SearchTree K} (hu : SearchTree.Retains s.tree u) :
    s₀.Working { s with tree := u } :=
  h.withTree (h.counted.tallied.retains hu) hu.same

theorem Working.report (h : s₀.Working s) (x : Array K) :
    Ensures (report x) s (fun _ t => s₀.Working t) fun _ _ => True := by
  unfold Search.report
  refine .bind (.get ?_)
  split
  · exact .pure h
  · next incumbent _ =>
    have hqueue := h.counted.tallied.queue
    have htallied : (s.tree.setHasIncumbent true).Tallied s.stats.nodesProcessed :=
      ⟨⟨hqueue.byBound, hqueue.byDepth, hqueue.byEstimate⟩, h.counted.tallied.fresh, h.counted.tallied.total⟩
    have hset : s₀.Working { s with incumbent, tree := s.tree.setHasIncumbent true } :=
      (h.withTree htallied ⟨rfl, rfl⟩).idle ⟨rfl, rfl, rfl, rfl, rfl⟩
    refine .bind (.set (.bind (.onPart ((htallied.pruneDominated _).mono (fun _ u hu => ?_) fun _ _ _ => trivial))))
    exact .pure (hset.withTree hu.1 hu.2)

omit [Scalar K] in
theorem Working.closeNode (h : s₀.Working s) (reason : PruneReason) :
    Ensures (closeNode id reason) s s₀.Finished fun _ _ => True := by
  refine .bind (.modify (.bind (.onPart ((SearchTree.close_retains id _ s.tree).mono (fun _ u hu => ?_)
    fun _ _ _ => trivial))))
  obtain ⟨hcounted, hunbranched⟩ := h.retains hu
  refine .pure ⟨⟨hcounted.tallied, hcounted.taken.trans ?_⟩, .inl ⟨hunbranched.nextId,
    hunbranched.nodesBranched, hunbranched.custom⟩⟩
  show s.stats.nodesBranched + s.stats.nodesPruned + u.numUnresolved + 1 =
    s.stats.nodesBranched + (s.stats.nodesPruned + 1) + u.numUnresolved + 0
  omega

omit [Scalar K] in
theorem Working.keepUnresolved (h : s₀.Working s) :
    Ensures (keepUnresolved id) s s₀.Finished fun _ _ => True := by
  refine .bind (.onPart ((h.counted.tallied.markUnresolved id).mono (fun _ u hu => .pure ?_) fun _ _ _ => trivial))
  obtain ⟨hu, hnext, hunresolved⟩ := hu
  refine ⟨⟨hu, h.counted.taken.trans ?_⟩, .inl ⟨hnext.trans h.unbranched.nextId,
    h.unbranched.nodesBranched, h.unbranched.custom⟩⟩
  show _ = s.stats.nodesBranched + s.stats.nodesPruned + u.numUnresolved + 0
  omega

/-- **Splitting a node.** -/
theorem Working.split (h : s₀.Working s) {d : BranchingDecision K}
    (htwo : s₀.handlers.custom = #[] → d.children.length = 2) (objective : K) (basis : Option SavedBasis) :
    Ensures (split id d objective basis) s s₀.Finished fun _ _ => True := by
  refine .bind (.onPart ((h.counted.tallied.pushChildren id d objective basis).mono
    (fun _ u hu => .bind (.modify (.pure ?_))) fun _ _ _ => trivial))
  obtain ⟨hu, hmany, hnext, hunresolved⟩ := hu
  rw [h.unbranched.nextId] at hnext
  refine ⟨⟨hu, h.counted.taken.trans ?_⟩, .inr ⟨?_, congrArg (· + 1) h.unbranched.nodesBranched,
    h.unbranched.custom, fun hbuiltIn => htwo hbuiltIn ▸ hnext⟩⟩
  · show _ = s.stats.nodesBranched + 1 + s.stats.nodesPruned + u.unresolved.length + 0
    rw [hunresolved]
    show s.stats.nodesBranched + s.stats.nodesPruned + s.tree.unresolved.length + 1 = _
    omega
  · show _ ≤ u.nextId
    omega

/-- The stages of a node while it is counted. -/
def countingStages (s₀ : Search K σ) : Stages K σ where
  waiting := s₀.Working
  entered _ := s₀.Working
  alive _ _ := s₀.Working
  ended _ _ _ _ := s₀.Working
  recorded _ _ _ := s₀.Working
  refuted := s₀.Working
  chosen d s := s₀.Working s ∧ (s₀.handlers.custom = #[] → d.children.length = 2)
  done := s₀.Finished
  fail _ _ := True

theorem contract_counting (s₀ : Search K σ) : Contract (countingStages s₀) sv id where
  waiting_fails _ := trivial
  alive_fails _ := trivial
  recorded_fails _ := trivial
  enter hs hpath := (evolves_idle.enterNode hpath).mono
    (fun feasible _ ht => by split <;> exact hs.idle ht) fun _ _ _ => trivial
  propagate hs := (hs.along evolves_idle.propagate').mono
    (fun alive _ ht => by split <;> exact ht) fun _ _ _ => trivial
  compact hs := .modify (hs.idle ⟨rfl, rfl, rfl, rfl, rfl⟩)
  rounds hs _ := (hs.along (.mono (warmStart_clerical _) fun _ _ => Clerical.idle)).mono
    (fun _ _ ht => ht.along (evolves_idle.runRounds _ _)) fun _ _ _ => trivial
  record hs := .onPart ((SearchTree.recordChanges_retains id _ _).mono
    (fun _ _ hu => hs.retains ((SearchTree.modifyNode_retains ..).trans hu)) fun _ _ _ => trivial)
  note hs ht := hs.idle ht.idle
  ask hs heur _ := (hs.along (.mono (askHeuristic_clerical _ heur) fun _ _ => Clerical.idle)).mono
    (fun _ _ ht => ht) fun _ _ _ => trivial
  report x hs := hs.report x
  solved hs := hs.report _
  unbounded hs := ⟨hs.counted, .inl hs.unbranched⟩
  refutes hs _ := hs
  prunable hs _ := hs
  decide hs := (ensures_decide? ..).mono (fun _ _ ht => ⟨hs.idle ht.1.idle, fun d hd =>
    ⟨hs.idle ht.1.idle, fun hbuiltIn => (ht.2 d hd).two (hs.unbranched.custom.trans hbuiltIn)⟩⟩) fun _ _ _ => trivial
  halve hs hd := ⟨hs, fun _ => Brancher.halve_children hd⟩
  close reason hs := hs.closeNode reason
  keep hs := hs.keepUnresolved
  split objective basis hs := hs.1.split hs.2 objective basis

/-! ## A whole run -/

/-- Nodes that have left the tree are counted where they left it. -/
theorem Finished.releaseNodes {result : NodeResult} (h : s₀.Finished result s) :
    Ensures (releaseNodes sv) s (fun _ t => s₀.Finished result t) fun _ _ => True := by
  have hdrained : s₀.Finished result { s with tree := s.tree.drainReleased.2 } :=
    ⟨⟨{ h.1.tallied with }, h.1.taken⟩, h.2.imp (fun hu => { hu with }) fun hb => { hb with }⟩
  have hevolves : Evolves sv Idle := evolves_idle
  have := hevolves.toEnters.isRefl
  have := hevolves.toEnters.isTrans
  refine .bind (.modifyGet ?_)
  exact (Preserves.forM (fun id => hevolves.releaseNode' id) _).mono (fun _ _ => hdrained.idle)
    fun _ _ _ => trivial

theorem Finished.updateDual {result : NodeResult} (h : s₀.Finished result s) (ht : Returns updateDual s ⟨⟩ t) :
    s₀.Finished result t := by
  obtain rfl := ht.modify
  obtain ⟨hlowest, hnext, hunresolved⟩ := h.1.tallied.lowestBound
  refine ⟨⟨hlowest, h.1.taken.trans ?_⟩, h.2.imp (fun hu => { hu with }) fun hb => { hb with }⟩
  rfl

theorem limit?_ne_unbounded : s.limit? sv ≠ some .unbounded := by
  intro h
  unfold limit? at h
  dsimp only at h
  repeat' split at h
  all_goals cases h

omit [Scalar K] in
theorem exhausted_ne_unbounded : s.exhausted ≠ .unbounded := by
  unfold exhausted
  split
  · nofun
  · split <;> nofun

/-- What is left to count after an iteration. -/
def leftOver (answer : Option Status) : Nat := if answer = some .unbounded then 1 else 0

theorem leftOver_eq_zero {answer : Option Status} (h : answer ≠ some .unbounded) : leftOver answer = 0 := if_neg h

/-- **One iteration** counts what it does. -/
theorem Counted.step (h : s.Counted 0) {answer : Option Status} (hstep : Returns (step sv) s answer t) :
    t.Counted (leftOver answer) ∧ (s.Unbranched t ∨ s.Branched t) := by
  rcases step_cases hstep with ⟨status, hlimit, rfl, rfl⟩ | ⟨-, u, hpop, rfl, rfl⟩ |
    ⟨-, id, u, hpop, result, v, w, hprocess, hrelease, hrest⟩
  · rw [leftOver_eq_zero fun heq => limit?_ne_unbounded (hlimit.trans heq)]
    exact ⟨h, .inl ⟨rfl, rfl, rfl⟩⟩
  · rw [leftOver_eq_zero fun heq => exhausted_ne_unbounded (Option.some.inj heq)]
    obtain ⟨u, hret, rfl⟩ := hpop.onPart
    obtain ⟨hu, hnext, hunresolved⟩ := (h.tallied.popNext _).returns hret
    refine ⟨⟨hu, h.taken.trans ?_⟩, .inl ⟨hnext, rfl, rfl⟩⟩
    show _ = s.stats.nodesBranched + s.stats.nodesPruned + u.unresolved.length + 0
    rw [hunresolved]
    rfl
  · obtain ⟨u, hret, rfl⟩ := hpop.onPart
    obtain ⟨hu, hnext, hunresolved⟩ := (h.tallied.popNext _).returns hret
    have hworking : s.Working { s with
        tree := u, stats := { s.stats with nodesProcessed := s.stats.nodesProcessed + 1 } } := by
      refine ⟨⟨hu, ?_⟩, hnext, rfl, rfl⟩
      show s.stats.nodesProcessed + 1 = s.stats.nodesBranched + s.stats.nodesPruned + u.unresolved.length + 1
      rw [hunresolved, h.taken]
      rfl
    have hw := (((contract_counting s).processNode hworking).returns hprocess).releaseNodes.returns hrelease
    rcases hrest with ⟨rfl, rfl, rfl⟩ | ⟨rfl, rfl, hdual⟩
    · exact hw
    · exact hw.updateDual hdual

/-- Before the first iteration nothing is counted, and only the root created. -/
theorem counted_root {m : Model K σ} {w : σ} (hsetUp : Returns (setUp sv) (.ofModel sv m w) ⟨⟩ s) :
    s.Counted 0 ∧ s.tree.nextId = 0 ∧ s.stats.nodesBranched = 0 ∧ s.handlers.custom = m.handlers.custom ∧
      (∀ id, Returns (onTree (SearchTree.createRoot Scalar.negInf)) s id t →
        t.Counted 0 ∧ t.tree.nextId = 1 ∧ t.stats.nodesBranched = 0 ∧ t.handlers.custom = m.handlers.custom) := by
  have hidle := (setUp_clerical.mono (fun _ _ => Clerical.idle) _).returns hsetUp
  have hstats : (ofModel sv m w).stats = {} := by
    unfold ofModel
    exact foldl_lockCons Search.stats (fun _ _ _ => rfl) _ _
  have hcustom : (ofModel sv m w).handlers = m.handlers := by
    unfold ofModel
    exact foldl_lockCons Search.handlers (fun _ _ _ => rfl) _ _
  have hstart : (ofModel sv m w).Counted 0 := by
    refine ⟨?_, ?_⟩
    · rw [(ofModel_start sv m w).1, hstats]
      exact SearchTree.new_tallied _
    · rw [(ofModel_start sv m w).1, hstats]
      rfl
  have hs := hstart.idle hidle
  have hnext : s.tree.nextId = 0 := by
    rw [hidle.tree, (ofModel_start sv m w).1]
    rfl
  have hbranched : s.stats.nodesBranched = 0 := by
    rw [hidle.nodesBranched, hstats]
  have hfamilies : s.handlers.custom = m.handlers.custom := hidle.custom.trans (by rw [hcustom])
  refine ⟨hs, hnext, hbranched, hfamilies, fun id hroot => ?_⟩
  obtain ⟨u, hret, rfl⟩ := hroot.onPart
  obtain ⟨hu, hnext', hunresolved⟩ := (hs.tallied.createRoot _).returns hret
  refine ⟨⟨hu, hs.taken.trans ?_⟩, hnext'.trans (by rw [hnext]), hbranched, hfamilies⟩
  show _ = s.stats.nodesBranched + s.stats.nodesPruned + u.unresolved.length + 0
  rw [hunresolved]
  rfl

theorem Visits.counted {m : Model K σ} {w : σ} (h : Visits sv (.ofModel sv m w) s) :
    s.Counted 0 ∧ s.handlers.custom = m.handlers.custom := by
  refine h.invariant (I := fun s => s.Counted 0 ∧ s.handlers.custom = m.handlers.custom)
    (fun s t id hsetUp _ hroot => ?_) fun s t hs hstep => ?_
  · obtain ⟨-, -, -, -, hroots⟩ := counted_root (t := t) hsetUp
    obtain ⟨ht, -, -, hcustom⟩ := hroots id hroot
    exact ⟨ht, hcustom⟩
  · obtain ⟨ht, hunbranched | hbranched⟩ := hs.1.step hstep
    · exact ⟨ht, hunbranched.custom.trans hs.2⟩
    · exact ⟨ht, hbranched.custom.trans hs.2⟩

/-- Every branching of a run has two children: an iteration that counts a branching creates
two nodes. -/
def Binary (sv : Solver K σ) (s₀ : Search K σ) : Prop :=
  ∀ s answer t, Visits sv s₀ s → Returns (step sv) s answer t →
    s.stats.nodesBranched < t.stats.nodesBranched → t.tree.nextId = s.tree.nextId + 2

/-- Without custom families every branching has two children. -/
theorem binary_of_builtIn {m : Model K σ} (hbuiltIn : m.handlers.custom = #[]) (w : σ) :
    Binary sv (.ofModel sv m w) := by
  intro s answer t hs hstep hlt
  obtain ⟨hcounted, hcustom⟩ := hs.counted
  obtain ⟨-, hunbranched | hbranched⟩ := hcounted.step hstep
  · have heq := hunbranched.nodesBranched
    omega
  · exact hbranched.builtIn (hcustom.trans hbuiltIn)

/-- With binary branchings, each creates two nodes besides the root. -/
theorem Binary.step {m : Model K σ} {w : σ} (hbinary : Binary sv (.ofModel sv m w))
    (hs : Visits sv (.ofModel sv m w) s) {answer : Option Status} (hstep : Returns (step sv) s answer t)
    (hnext : s.tree.nextId = 1 + 2 * s.stats.nodesBranched) : t.tree.nextId = 1 + 2 * t.stats.nodesBranched := by
  obtain ⟨-, hunbranched | hbranched⟩ := hs.counted.1.step hstep
  · rw [hunbranched.nextId, hunbranched.nodesBranched, hnext]
  · have hbranches := hbranched.nodesBranched
    have htwo := hbinary s answer t hs hstep (by omega)
    omega

theorem Binary.visits {m : Model K σ} {w : σ} (hbinary : Binary sv (.ofModel sv m w))
    (hs : Visits sv (.ofModel sv m w) s) : s.tree.nextId = 1 + 2 * s.stats.nodesBranched := by
  induction hs with
  | @root s t id hsetUp _ hroot =>
    obtain ⟨-, -, -, -, hroots⟩ := counted_root (t := t) hsetUp
    obtain ⟨-, hnext, hbranched, -⟩ := hroots id hroot
    rw [hnext, hbranched]
  | next hs hstep ih => exact hbinary.step hs hstep ih

/-- The counts of a result, and the number of nodes ever created, which is the next number
of the tree. -/
structure Balanced (out : Outcome K) (s : Search K σ) : Prop where
  created : s.tree.nextId = out.stats.nodesProcessed + s.tree.prunedByBound + out.stats.nodesOpen
  pruned : s.tree.prunedByBound ≤ out.stats.nodesPruned
  processed : out.stats.nodesProcessed = out.stats.nodesBranched +
    (out.stats.nodesPruned - s.tree.prunedByBound) + s.tree.numUnresolved + leftOver (some out.status)

theorem Counted.balanced {status : Status} (h : s.Counted (leftOver (some status))) :
    Balanced (s.finish status) s := by
  refine ⟨h.tallied.total, Nat.le_add_left .., h.taken.trans ?_⟩
  show _ = s.stats.nodesBranched + (s.stats.nodesPruned + s.tree.prunedByBound - s.tree.prunedByBound) +
    s.tree.numUnresolved + _
  rw [Nat.add_sub_cancel]
  rfl

/-- **Every node is counted once** in the result of a solve, whatever the oracle and the
plugins do. If each branching has two children, a run that creates the root leaves one node
more than it branched. -/
theorem solve_counts (m : Model K σ) (w : σ) {out : Outcome K} (hout : (sv.solve m w).1 = .ok out) :
    ∃ s, Returns (run sv) (.ofModel sv m w) out s ∧ Balanced out s ∧
      (Binary sv (.ofModel sv m w) → 0 < s.tree.nextId → 1 + out.stats.nodesBranched =
        out.stats.nodesOpen + out.stats.nodesPruned + s.tree.numUnresolved + leftOver (some out.status)) := by
  obtain ⟨t, hrun⟩ := sv.solve_returns hout
  have hends : Balanced out t ∧ (Binary sv (.ofModel sv m w) → 0 < t.tree.nextId →
      t.tree.nextId = 1 + 2 * out.stats.nodesBranched) := by
    rcases run_ends hrun with ⟨hsetUp, -, rfl⟩ | ⟨s, status, hs, hstep, rfl⟩
    · obtain ⟨ht, hnext, -⟩ := counted_root (t := t) hsetUp
      exact ⟨ht.balanced, fun _ hpos => absurd hnext (Nat.ne_of_gt hpos)⟩
    · exact ⟨(hs.counted.1.step hstep).1.balanced, fun hbinary _ => hbinary.step hs hstep (hbinary.visits hs)⟩
  obtain ⟨hbalanced, htwice⟩ := hends
  refine ⟨t, hrun, hbalanced, fun hbinary hpos => ?_⟩
  have hcreated := hbalanced.created
  have hpruned := hbalanced.pruned
  have hprocessed := hbalanced.processed
  have hnext := htwice hbinary hpos
  omega

theorem solve_counts_choice : ∃ out s, (choosing.solve choice ()).1 = .ok out ∧
    Returns (run choosing) (.ofModel choosing choice ()) out s ∧ Balanced out s ∧
      Binary choosing (.ofModel choosing choice ()) ∧ 0 < s.tree.nextId ∧ 1 + out.stats.nodesBranched =
        out.stats.nodesOpen + out.stats.nodesPruned + s.tree.numUnresolved + leftOver (some out.status) := by
  obtain ⟨out, hout, -, hprocessed⟩ := choosing_solves
  obtain ⟨s, hrun, hbalanced, hbinary⟩ := solve_counts choice () hout
  have htwo : Binary choosing (.ofModel choosing choice ()) := binary_of_builtIn choice_built.arranged.builtIn ()
  have hpos : 0 < s.tree.nextId := by
    have hcreated := hbalanced.created
    omega
  exact ⟨out, s, hout, hrun, hbalanced, htwo, hpos, hbinary htwo hpos⟩

end Search

end BranchAndCut

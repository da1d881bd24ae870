import BranchAndCut.Proofs.Program
import BranchAndCut.Proofs.Tree.SearchTree

/-! # Nodes under their own numbers

Each operation of the tree, also one that fails, leaves every node filed under its own
number. -/

namespace BranchAndCut.SearchTree

variable {K : Type} {t : SearchTree K}

/-- Every node is filed under its number. -/
def Named (t : SearchTree K) : Prop := ∀ n node, t.node? n = some node → node.id = n

theorem Named.congr {u : SearchTree K} (h : t.Named) (hnodes : u.nodes = t.nodes) : u.Named := by
  unfold Named node?
  rw [hnodes]
  exact h

theorem Named.setNode (h : t.Named) (new : Node K) : (t.setNode new).Named := by
  intro n node hn
  rw [node?_setNode] at hn
  split at hn
  · next hid =>
    obtain rfl := Option.some.inj hn
    exact hid
  · exact h n node hn

theorem Named.modifyNode (h : t.Named) (id : NodeId) (f : Node K → Node K) : (t.modifyNode id f).Named := by
  unfold SearchTree.modifyNode
  split
  · exact h.setNode _
  · exact h

theorem Named.remove (h : t.Named) (id : NodeId) : (t.remove id).Named := by
  intro n node hn
  rw [node?_remove] at hn
  split at hn
  · cases hn
  · exact h n node hn

variable [Scalar K]

omit [Scalar K] in
theorem Named.removeUpwards (h : t.Named) (id : NodeId) (fuel : Nat) :
    Ensures (removeUpwards (K := K) id fuel) t (fun _ u => u.Named) fun _ u => u.Named := by
  induction fuel generalizing t id with
  | zero => exact .throw h
  | succ fuel ih =>
    unfold SearchTree.removeUpwards
    refine .bind (.get ?_)
    split
    · exact .throw h
    · split
      · have hremoved := h.remove id
        refine .bind (.set ?_)
        split
        · exact .pure hremoved
        · split
          · exact .throw hremoved
          · exact .bind (.set (ih (hremoved.setNode _) _))
      · exact .pure h

omit [Scalar K] in
theorem Named.close (h : t.Named) (id : NodeId) (status : NodeStatus) :
    Ensures (close (K := K) id status) t (fun _ u => u.Named) fun _ u => u.Named := by
  unfold SearchTree.close
  refine .bind (.get ?_)
  split
  · exact .throw h
  · exact .bind (.set ((h.setNode _).removeUpwards _ _))

theorem Named.popLoop (h : t.Named) (prunable : K → Bool) (fuel : Nat) :
    Ensures (popLoop prunable fuel) t (fun _ u => u.Named) fun _ u => u.Named := by
  induction fuel generalizing t with
  | zero => exact .pure h
  | succ fuel ih =>
    unfold SearchTree.popLoop
    refine .bind (.get ?_)
    split
    · exact .bind (.set (.pure h))
    · refine .bind (.set ?_)
      split
      · exact .throw h
      · split
        · refine .bind (.set (.bind ?_))
          exact (Named.close (t := { t with queue := _, prunedByBound := t.prunedByBound + 1 }) h _ _).mono
            (fun _ u hu => ih hu) fun _ _ hfail => hfail
        · exact .bind (.set (.pure (Named.setNode (t := { t with queue := _ }) h _)))

theorem Named.popNext (h : t.Named) (prunable : K → Bool) :
    Ensures (popNext prunable) t (fun _ u => u.Named) fun _ u => u.Named :=
  .bind (.get (h.popLoop prunable _))

theorem Named.pushChildren (h : t.Named) (id : NodeId) (d : BranchingDecision K) (objective : K)
    (basis : Option SavedBasis) :
    Ensures (pushChildren id d objective basis) t (fun _ u => u.Named) fun _ u => u.Named := by
  have hadd : ∀ (children : List (Node K)) (u : SearchTree K), u.Named → (children.foldl addChild u).Named := by
    intro children
    induction children with
    | nil => exact fun _ hu => hu
    | cons child children ih => exact fun u hu => ih _ (hu.setNode child)
  unfold SearchTree.pushChildren
  dsimp only
  by_cases hfew : d.children.length < 2
  · rw [if_pos hfew]
    exact .bind (.throw h)
  · rw [if_neg hfew]
    refine .bind (.get (.bind (.modify (.bind (.get ?_)))))
    split
    · exact .throw h
    · refine .bind (.set (.pure (Named.congr (Named.modifyNode (hadd _ _ ?_) _ _) rfl)))
      exact h.congr rfl

omit [Scalar K] in
theorem Named.markUnresolved (h : t.Named) (id : NodeId) :
    Ensures (markUnresolved (K := K) id) t (fun _ u => u.Named) fun _ u => u.Named := by
  unfold SearchTree.markUnresolved
  refine .bind (.get ?_)
  split
  · exact .throw h
  · exact .set (h.setNode _)

omit [Scalar K] in
theorem Named.recordChanges (h : t.Named) (id : NodeId) (changes : List (BoundChange K)) :
    Ensures (recordChanges id changes) t (fun _ u => u.Named) fun _ u => u.Named := by
  unfold SearchTree.recordChanges
  refine .bind (.get ?_)
  split
  · exact .throw h
  · exact .set (h.setNode _)

theorem Named.pruneDominated (h : t.Named) (prunable : K → Bool) :
    Ensures (pruneDominated prunable) t (fun _ u => u.Named) fun _ u => u.Named := by
  unfold SearchTree.pruneDominated
  refine .bind (.modifyGet (.bind ?_))
  refine (Ensures.forM (I := fun _ u => u.Named) (fun id _ u hu => hu.close id _) h).mono ?_ fun _ _ hfail => hfail
  exact fun _ u hu => .bind (.modify (.pure hu))

theorem Named.createRoot (h : t.Named) (bound : K) :
    Ensures (createRoot bound) t (fun _ u => u.Named) fun _ u => u.Named := by
  unfold SearchTree.createRoot
  refine .bind (.get ?_)
  dsimp only
  split
  · exact .bind (.throw h)
  · exact .bind (.set (.pure (h.setNode _)))

omit [Scalar K] in
/-- The path to a node ends with it. -/
theorem mem_pathFrom {id : NodeId} {known path : List NodeId} {fuel : Nat}
    (h : t.pathFrom id known fuel = .ok path) : id ∈ path ∧ ∀ n ∈ known, n ∈ path := by
  induction fuel generalizing id known with
  | zero => cases h
  | succ fuel ih =>
    cases hn : t.node? id with
    | none =>
      unfold SearchTree.pathFrom getNode at h
      rw [hn] at h
      cases h
    | some node =>
      rw [pathFrom_succ hn] at h
      cases hp : node.parent with
      | none =>
        rw [hp] at h
        cases h
        exact ⟨List.mem_cons_self, fun n hmem => List.mem_cons_of_mem _ hmem⟩
      | some p =>
        rw [hp] at h
        obtain ⟨-, hknown⟩ := ih h
        exact ⟨hknown id List.mem_cons_self, fun n hmem => hknown n (List.mem_cons_of_mem _ hmem)⟩

omit [Scalar K] in
theorem mem_pathTo {id : NodeId} {path : List NodeId} (h : t.pathTo id = .ok path) : id ∈ path :=
  (mem_pathFrom h).1

end BranchAndCut.SearchTree

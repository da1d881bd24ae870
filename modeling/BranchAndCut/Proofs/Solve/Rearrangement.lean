import BranchAndCut.Proofs.Agreement
import BranchAndCut.Proofs.Branching.Choice
import BranchAndCut.Proofs.Model.Rearrangement
import BranchAndCut.Solve.Run

/-! # Searches over rearranged problems

Only the choice of a variable to branch on reads the groups of a problem, and it does not
depend on their order. So two searches over problems whose groups are in different orders go
the same way, step by step, and the groups are all that they differ in. -/

namespace BranchAndCut

variable {K σ : Type} [Scalar K]

namespace Search

/-- The searches differ at most in the order in which the groups list the active variables. -/
def Rearranged (s t : Search K σ) : Prop := ∃ q, s.problem.Rearranged q ∧ t = { s with problem := q }

variable {α β : Type} {sv : Solver K σ}

/-! ## Steps -/

/-- The problem is not read. -/
theorem get_respects {f : Search K σ → SearchM K σ α} (hsame : ∀ s q, f { s with problem := q } = f s)
    (hf : ∀ s, Respects Rearranged (f s)) : Respects Rearranged (MonadState.get >>= f) := by
  refine .get_bind ?_ hf
  rintro s _ ⟨q, -, rfl⟩
  exact hsame s q

/-- The problem is neither read nor changed. -/
theorem modifyGet_respects {f : Search K σ → α × Search K σ}
    (hsame : ∀ s q, f { s with problem := q } = ((f s).1, { (f s).2 with problem := q }))
    (hkeep : ∀ s, (f s).2.problem = s.problem) :
    Respects Rearranged (MonadState.modifyGet f : SearchM K σ α) := by
  refine .modifyGet ?_ ?_ <;> rintro s _ ⟨q, hq, rfl⟩
  · exact (congrArg Prod.fst (hsame s q) :)
  · exact ⟨q, (hkeep s).symm ▸ hq, (congrArg Prod.snd (hsame s q) :)⟩

theorem modify_respects {f : Search K σ → Search K σ}
    (hsame : ∀ s q, f { s with problem := q } = { f s with problem := q }) (hkeep : ∀ s, (f s).problem = s.problem) :
    Respects Rearranged (modify f : SearchM K σ PUnit) := by
  refine .modify ?_
  rintro s _ ⟨q, hq, rfl⟩
  exact ⟨q, (hkeep s).symm ▸ hq, hsame s q⟩

theorem onPart_respects {τ : Type} {part : Search K σ → τ} {put : Search K σ → τ → Search K σ}
    {act : EStateM (Error K) τ α} (hpart : ∀ s q, part { s with problem := q } = part s)
    (hput : ∀ s q a, put { s with problem := q } a = { put s a with problem := q })
    (hkeep : ∀ s a, (put s a).problem = s.problem) : Respects Rearranged (onPart part put act) := by
  refine .onPart (.eq act) ?_ ?_
  · rintro s _ ⟨q, -, rfl⟩
    exact (hpart s q).symm
  · rintro s _ ⟨q, hq, rfl⟩ a _ rfl
    exact ⟨q, (hkeep s a).symm ▸ hq, hput s q a⟩

theorem onWorld_respects (act : EStateM (Error K) σ α) : Respects Rearranged (onWorld act) :=
  onPart_respects (fun _ _ => rfl) (fun _ _ _ => rfl) fun _ _ => rfl

theorem onTree_respects (act : TreeM K α) : Respects Rearranged (onTree act : SearchM K σ α) :=
  onPart_respects (fun _ _ => rfl) (fun _ _ _ => rfl) fun _ _ => rfl

theorem attempt_respects (r : Except (Error K) α) : Respects Rearranged (attempt r : SearchM K σ α) := by
  cases r with
  | ok a => exact .pure a
  | error e => exact .throw e

theorem modifyStats_respects (f : Stats → Stats) : Respects Rearranged (modifyStats f : SearchM K σ Unit) :=
  modify_respects (fun _ _ => rfl) fun _ => rfl

/-! ## Rows of the relaxation -/

theorem addConsRows_respects (id : ConsId) : Respects Rearranged (addConsRows sv id) := by
  refine get_respects (fun _ _ => rfl) fun s => ?_
  dsimp only
  split
  · exact .bind (onWorld_respects _) fun _ => modify_respects (fun _ _ => rfl) fun _ => rfl
  · exact .pure _

theorem removeConsRows_respects (id : ConsId) : Respects Rearranged (removeConsRows sv id) := by
  refine get_respects (fun _ _ => rfl) fun s => ?_
  split
  · exact .pure _
  · exact .bind (modify_respects (fun _ _ => rfl) fun _ => rfl) fun _ => onWorld_respects _

theorem syncRows_respects (delta : ActivationDelta) : Respects Rearranged (syncRows sv delta) :=
  .bind (.forM removeConsRows_respects) fun _ => .forM addConsRows_respects

theorem setUp_respects : Respects Rearranged (setUp sv) := by
  refine .get_bind ?_ fun s => .bind (onWorld_respects _) fun _ => .forM addConsRows_respects
  rintro s _ ⟨q, hq, rfl⟩
  obtain ⟨groups, rfl⟩ := hq.groups
  rfl

theorem addCutRow_respects (id : Nat) : Respects Rearranged (addCutRow sv id) := by
  refine get_respects (fun _ _ => rfl) fun s => ?_
  split
  · exact .throw _
  · exact .bind (modify_respects (fun _ _ => rfl) fun _ => rfl) fun _ => onWorld_respects _

theorem retireCutRows_respects (ids : List Nat) : Respects Rearranged (retireCutRows ids : SearchM K σ Unit) :=
  modify_respects (fun _ _ => rfl) fun _ => rfl

theorem flushStaleRows_respects : Respects Rearranged (flushStaleRows sv) := by
  refine get_respects (fun _ _ => rfl) fun s => ?_
  dsimp only
  split
  · exact .bind (modify_respects (fun _ _ => rfl) fun _ => rfl) fun _ => onWorld_respects _
  · exact .pure _

theorem addLocalCut_respects (node : NodeId) (cut : Cut K) : Respects Rearranged (addLocalCut sv node cut) := by
  rintro s _ ⟨q, hq, rfl⟩
  refine .get_bind (.bind (.set ⟨q, hq, rfl⟩) fun _ => ?_)
  exact Respects.bind (attempt_respects _) fun _ =>
    .bind (modify_respects (fun _ _ => rfl) fun _ => rfl) fun _ => addConsRows_respects _

/-! ## Priced columns -/

theorem checkEntry_respects (pricer : String) (col : PricedColumn K) (entry : ConsId × K) :
    Respects Rearranged (checkEntry pricer col entry : SearchM K σ Unit) := by
  refine get_respects (fun _ _ => rfl) fun s => ?_
  exact .ite (.throw_bind _ _) (.ite (.throw _) (.pure _))

theorem enterColumn_respects (v : VarId) (entry : ConsId × K) :
    Respects Rearranged (enterColumn v entry : SearchM K σ (Option (RowKey × K))) := by
  refine get_respects (fun _ _ => rfl) fun s => ?_
  refine .bind (onPart_respects (fun _ _ => rfl) (fun _ _ _ => rfl) fun _ _ => rfl) fun _ => ?_
  refine .bind (modify_respects (fun _ _ => rfl) fun _ => rfl) fun _ => ?_
  exact get_respects (fun _ _ => rfl) fun _ => .pure _

/-- A priced column enters both problems, or is refused by both. -/
theorem addPricedColumn_respects (pricer : String) (col : PricedColumn K) :
    Respects Rearranged (addPricedColumn sv pricer col) := by
  refine .bind (.forM fun entry => checkEntry_respects pricer col entry) fun _ => ?_
  rintro s _ ⟨q, hq, rfl⟩
  refine .get_bind ?_
  dsimp only
  obtain ⟨flaw, hp, hq'⟩ | ⟨v, p', q', hp, hq', h'⟩ := hq.addVar col.name col.type col.lower col.upper col.obj
  · rw [hp, hq']
    exact .throw _ ⟨q, hq, rfl⟩
  · rw [hp, hq']
    obtain ⟨groups, rfl⟩ := h'.groups
    refine .bind (.set ⟨_, h', rfl⟩) fun _ => Respects.ite (.throw_bind _ _) ?_
    exact .bind (.mapM fun entry => enterColumn_respects v entry) fun entries =>
      .bind (onWorld_respects _) fun _ => modifyStats_respects _

/-! ## Solutions -/

/-- The variables that have to be integral are the same ones. -/
theorem Rearranged.isIntegralAt {s t : Search K σ} (h : Rearranged s t) (intTol : K) (x : Array K) :
    t.isIntegralAt intTol x = s.isIntegralAt intTol x := by
  obtain ⟨q, hq, rfl⟩ := h
  exact hq.branchable_perm.all_eq

theorem report_respects (x : Array K) : Respects Rearranged (report x : SearchM K σ Bool) := by
  rintro s _ ⟨q, hq, rfl⟩
  refine .get_bind ?_
  have hvalue : q.value x = s.problem.value x := by
    obtain ⟨groups, rfl⟩ := hq.groups
    rfl
  dsimp only
  rw [hvalue]
  split
  · exact .pure _ ⟨q, hq, rfl⟩
  · exact .bind (.set ⟨q, hq, rfl⟩) fun _ => Respects.bind (onTree_respects _) fun _ => .pure _

theorem trySolution_respects (x : Array K) : Respects Rearranged (trySolution sv x) := by
  refine .get_bind ?_ fun s => ?_
  · rintro s _ ⟨q, hq, rfl⟩
    obtain ⟨groups, rfl⟩ := hq.groups
    rfl
  repeat' split
  all_goals first | exact .pure _ | exact report_respects x

/-! ## Nodes -/

theorem releaseNode_respects (node : NodeId) : Respects Rearranged (releaseNode sv node) := by
  refine .bind (modifyGet_respects (fun _ _ => rfl) fun _ => rfl) fun ids => .forM fun id => ?_
  exact .bind (removeConsRows_respects id) fun _ => modify_respects (fun _ _ => rfl) fun _ => rfl

theorem releaseNodes_respects : Respects Rearranged (releaseNodes sv) :=
  .bind (modifyGet_respects (fun _ _ => rfl) fun _ => rfl) fun _ => .forM releaseNode_respects

theorem propagate_respects : Respects Rearranged (propagate sv) := by
  refine get_respects (fun _ _ => rfl) fun s => ?_
  refine .bind (onPart_respects (fun _ _ => rfl) (fun _ _ _ => rfl) fun _ _ => rfl) fun out => ?_
  exact .bind (modifyStats_respects _) fun _ => .pure _

theorem closeNode_respects (id : NodeId) (reason : PruneReason) :
    Respects Rearranged (closeNode id reason : SearchM K σ NodeResult) :=
  .bind (modifyStats_respects _) fun _ => .bind (onTree_respects _) fun _ => .pure _

/-- Fixed variables leave both problems. -/
theorem compactFixed_respects : Respects Rearranged (compactFixed : SearchM K σ Unit) := by
  refine .modify ?_
  rintro s _ ⟨q, hq, rfl⟩
  refine ⟨_, hq.compactAll _ (q.order.filter s.domains.isGloballyFixed) fun v => ?_, rfl⟩
  rw [List.mem_filter, List.mem_filter, hq.right.mem_order, hq.left.mem_order, hq.active]

theorem askHeuristic_respects (p : HeuristicPoint K) (heur : Heuristic K σ) :
    Respects Rearranged (askHeuristic p heur) := by
  refine .bind (onWorld_respects _) fun found => ?_
  split
  · exact .pure _
  · split
    · exact .throw _
    · exact .pure _

theorem runHeuristics_respects (x : Array K) : Respects Rearranged (runHeuristics sv x) := by
  refine get_respects (fun _ _ => rfl) fun s => ?_
  refine .bind (.mapM fun heur => askHeuristic_respects _ heur) fun proposed => .forM fun found => ?_
  split
  · exact .pure _
  · refine .bind (trySolution_respects _) fun accepted => ?_
    split
    · exact modifyStats_respects _
    · exact .pure _

/-- **The choice** is the same one, as the variables to choose from are the same set. -/
theorem decide?_respects (bound : K) (x : Array K) :
    Respects Rearranged (decide? bound x : SearchM K σ (Option (BranchingDecision K))) := by
  refine .get_bind ?_ fun s => ?_
  · rintro s _ ⟨q, hq, rfl⟩
    have hselect := fun n => s.brancher.select_perm bound hq.branchable_perm x s.domains n
    have hhalve := fun (b : Brancher K σ) d => b.halve_perm bound hq.branchable_perm (some x) d
    simp only [hselect, hhalve]
  · refine .bind (onWorld_respects _) fun selected => ?_
    split
    · exact .pure _
    · refine get_respects (fun _ _ => rfl) fun s => ?_
      dsimp only
      split
      · exact .pure _
      · exact attempt_respects _

theorem keepUnresolved_respects (id : NodeId) : Respects Rearranged (keepUnresolved id : SearchM K σ NodeResult) :=
  .bind (onTree_respects _) fun _ => .pure _

theorem split_respects (id : NodeId) (d : BranchingDecision K) (objective : K) (basis : Option SavedBasis) :
    Respects Rearranged (split id d objective basis : SearchM K σ NodeResult) :=
  .bind (onTree_respects _) fun _ => .bind (modifyStats_respects _) fun _ => .pure _

theorem branch_respects (id : NodeId) (bound : K) (lp : Relaxation K) :
    Respects Rearranged (branch sv id bound lp) := by
  refine .iteBind (runHeuristics_respects _) fun _ => get_respects (fun _ _ => rfl) fun s => ?_
  refine .ite (closeNode_respects _ _) (.bind (decide?_respects _ _) fun choice => ?_)
  split
  · exact get_respects (fun _ _ => rfl) fun s => split_respects _ _ _ _
  · exact .bind (modifyStats_respects _) fun _ => keepUnresolved_respects id

theorem branchBlindly_respects (id : NodeId) (bound : K) :
    Respects Rearranged (branchBlindly id bound : SearchM K σ NodeResult) := by
  refine .bind (modifyStats_respects _) fun _ => .get_bind ?_ fun s => .bind (attempt_respects _) fun choice => ?_
  · rintro s _ ⟨q, hq, rfl⟩
    dsimp only
    rw [s.brancher.halve_perm bound hq.branchable_perm]
  · split
    · exact split_respects _ _ _ _
    · exact keepUnresolved_respects id

theorem enterNode_respects (path : List NodeId) : Respects Rearranged (enterNode sv path) :=
  .bind (modifyGet_respects (fun _ _ => rfl) fun _ => rfl) fun _ =>
    .bind (modifyGet_respects (fun _ _ => rfl) fun _ => rfl) fun delta =>
      .bind (syncRows_respects delta) fun _ => .bind (modifyStats_respects _) fun _ => .pure _

theorem warmStart_respects (node : Node K) : Respects Rearranged (warmStart sv node) := by
  refine modify_respects (fun s q => ?_) fun s => ?_
  · dsimp only
    split <;> rfl
  · split <;> rfl

end Search

end BranchAndCut

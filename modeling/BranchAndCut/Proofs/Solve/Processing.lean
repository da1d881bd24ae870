import BranchAndCut.Proofs.Solve.Evolution

/-! # Processing a node, stage by stage

A node waits, is entered, propagated and put through its rounds; what they found is
recorded, and the node is closed, kept or split. A contract names what is known at each of
these stages, and asks every operation for the step from one stage to the next. So what it
says of the stages, the whole of the processing ensures, however the node ends. -/

namespace BranchAndCut

/-- The outcomes of rounds after which a node is closed. -/
def RoundOutcome.Refutes : RoundOutcome → Prop
  | .infeasible => True
  | .cutoff => True
  | .boundExceeded => True
  | _ => False

namespace Search

variable {K σ : Type} [Scalar K] {sv : Solver K σ} {id : NodeId} {s : Search K σ}

/-- What is known of a search at the stages of a node. -/
structure Stages (K σ : Type) where
  /-- Before the node is entered. -/
  waiting : Search K σ → Prop
  /-- The path is active. -/
  entered : List NodeId → Search K σ → Prop
  /-- Propagated; some number of bound changes came from the path. -/
  alive : List NodeId → Nat → Search K σ → Prop
  /-- After the rounds, with their outcome, bound and relaxation result. -/
  ended : Nat → RoundOutcome → K → Option (Relaxation K) → Search K σ → Prop
  /-- The bound and the bound changes are in the tree. -/
  recorded : RoundOutcome → K → Option (Relaxation K) → Search K σ → Prop
  /-- Nothing below the node is wanted. -/
  refuted : Search K σ → Prop
  /-- The node is to be split. -/
  chosen : BranchingDecision K → Search K σ → Prop
  /-- The node is done with. -/
  done : NodeResult → Search K σ → Prop
  fail : Error K → Search K σ → Prop

/-- Every operation leads from its stage to the next. -/
structure Contract (S : Stages K σ) (sv : Solver K σ) (id : NodeId) : Prop where
  waiting_fails : ∀ {s e}, S.waiting s → S.fail e s
  alive_fails : ∀ {path replayed s e}, S.alive path replayed s → S.fail e s
  recorded_fails : ∀ {o b lp s e}, S.recorded o b lp s → S.fail e s
  enter : ∀ {s path}, S.waiting s → s.tree.pathTo id = .ok path →
    Ensures (Search.enterNode sv path) s (fun feasible t => if feasible = true then S.entered path t else S.refuted t) S.fail
  propagate : ∀ {path s}, S.entered path s → Ensures (Search.propagate sv) s
    (fun alive t => if alive = true then S.alive path s.domains.focusDelta.length t else S.refuted t) S.fail
  compact : ∀ {path replayed s}, S.alive path replayed s →
    Ensures Search.compactFixed s (fun _ t => S.alive path replayed t) S.fail
  rounds : ∀ {path replayed s node}, S.alive path replayed s → s.tree.node? id = some node →
    Ensures (Search.warmStart sv node) s (fun _ t => Ensures (Search.runRounds sv node (path.length - 1)) t
      (fun r u => S.ended replayed r.1 r.2.1 r.2.2 u) S.fail) S.fail
  record : ∀ {replayed o b lp s}, S.ended replayed o b lp s →
    Ensures (onTree (SearchTree.recordChanges id (s.domains.focusDelta.drop replayed)))
      { s with tree := s.tree.modifyNode id (·.raiseBound b) } (fun _ t => S.recorded o b lp t) S.fail
  note : ∀ {o b lp s stats}, S.recorded o b lp s → s.Clerical { s with stats } → S.recorded o b lp { s with stats }
  ask : ∀ {o b lp s p}, S.recorded o b lp s → ∀ heur ∈ sv.plugins.heuristics,
    Ensures (Search.askHeuristic p heur) s (fun _ t => S.recorded o b lp t) S.fail
  report : ∀ {o b lp s} x, S.recorded o b lp s → Ensures (Search.report x) s (fun _ t => S.recorded o b lp t) S.fail
  solved : ∀ {b lp s}, S.recorded .feasible b (some lp) s → Ensures (Search.report lp.x) s (fun _ t => S.refuted t) S.fail
  unbounded : ∀ {b lp s}, S.recorded .unbounded b lp s → S.done .unbounded s
  refutes : ∀ {o b lp s}, S.recorded o b lp s → o.Refutes → S.refuted s
  prunable : ∀ {o b lp s}, S.recorded o b lp s → s.incumbent.isPrunable b = true → S.refuted s
  decide : ∀ {b lp s}, S.recorded .fractional b (some lp) s → Ensures (Search.decide? b lp.x) s
    (fun choice t => S.recorded .fractional b (some lp) t ∧ ∀ d ∈ choice, S.chosen d t) S.fail
  halve : ∀ {o b lp s d}, S.recorded o b lp s →
    s.brancher.halve b s.problem.branchable none s.domains = .ok (some d) → S.chosen d s
  close : ∀ {s} reason, S.refuted s → Ensures (Search.closeNode id reason) s S.done S.fail
  keep : ∀ {o b lp s}, S.recorded o b lp s → Ensures (Search.keepUnresolved id) s S.done S.fail
  split : ∀ {s d} objective basis, S.chosen d s → Ensures (Search.split id d objective basis) s S.done S.fail

namespace Contract

variable {S : Stages K σ} {o : RoundOutcome} {b : K} {lp : Option (Relaxation K)}

theorem trySolution (h : Contract S sv id) (x : Array K) (hs : S.recorded o b lp s) :
    Ensures (trySolution sv x) s (fun _ t => S.recorded o b lp t) S.fail := by
  unfold Search.trySolution
  refine .bind (.get ?_)
  split
  · exact .pure hs
  · split
    · exact .pure hs
    · split
      · exact .pure hs
      · exact h.report x hs

theorem runHeuristics (h : Contract S sv id) (x : Array K) (hs : S.recorded o b lp s) :
    Ensures (runHeuristics sv x) s (fun _ t => S.recorded o b lp t) S.fail := by
  unfold Search.runHeuristics
  refine .bind (.get (.bind_mono (Ensures.mapM (I := fun _ t => S.recorded o b lp t)
    (fun heur hheur _ _ ht => h.ask ht heur hheur) hs) fun proposed t ht => ?_))
  refine Ensures.forM (I := fun _ t => S.recorded o b lp t) (fun proposal _ u hu => ?_) ht
  cases proposal with
  | none => exact .pure hu
  | some y =>
    refine .bind_mono (h.trySolution y hu) fun better v hv => ?_
    split
    · exact .modify (h.note hv rfl)
    · exact .pure hv

/-- **Splitting at a relaxation solution.** -/
theorem branch (h : Contract S sv id) {lp : Relaxation K} (hs : S.recorded .fractional b (some lp) s) :
    Ensures (branch sv id b lp) s S.done S.fail := by
  unfold Search.branch
  refine .iteBind (I := S.recorded .fractional b (some lp)) (fun _ => h.runHeuristics lp.x hs) (fun _ => hs) fun t ht => ?_
  refine .bind (.get ?_)
  split
  · next hprunable => exact h.close _ (h.prunable ht (Bool.and_eq_true_iff.mp hprunable).2)
  · refine .bind_mono (h.decide ht) ?_
    rintro choice u ⟨hu, hchosen⟩
    cases choice with
    | some d => exact .bind (.get (h.split _ _ (hchosen d rfl)))
    | none => exact .bind (.modify (h.keep (h.note hu rfl)))

/-- **Splitting without a relaxation solution.** -/
theorem branchBlindly (h : Contract S sv id) (hs : S.recorded o b lp s) :
    Ensures (branchBlindly id b) s S.done S.fail := by
  have ht : S.recorded o b lp { s with stats := { s.stats with unreliableNodes := s.stats.unreliableNodes + 1 } } :=
    h.note hs rfl
  refine .bind (.modify (.bind (.get ?_)))
  cases hchoice : s.brancher.halve b s.problem.branchable none s.domains with
  | error e => exact .bind (.throw (h.recorded_fails ht))
  | ok choice =>
    refine .bind (.pure ?_)
    cases choice with
    | some d => exact h.split _ _ (h.halve ht hchoice)
    | none => exact h.keep ht

theorem conclude (h : Contract S sv id) (hs : S.recorded o b lp s) :
    Ensures (conclude sv id o b lp) s S.done S.fail := by
  unfold Search.conclude
  split
  · exact .pure (h.unbounded hs)
  · exact h.close _ (h.refutes hs trivial)
  · exact h.close _ (h.refutes hs trivial)
  · exact h.close _ (h.refutes hs trivial)
  · exact .bind_mono (h.solved hs) fun _ _ ht => h.close _ ht
  · exact h.branch hs
  · exact h.branchBlindly hs

/-- **A node is processed** from stage to stage. -/
theorem processNode (h : Contract S sv id) (hs : S.waiting s) : Ensures (processNode sv id) s S.done S.fail := by
  unfold Search.processNode
  refine .bind (.get ?_)
  cases hpath : s.tree.pathTo id with
  | error e => exact .bind (.throw (h.waiting_fails hs))
  | ok path =>
    refine .bind (.pure (.bind_mono (h.enter hs hpath) fun feasible t ht => ?_))
    cases feasible with
    | false => exact h.close _ ht
    | true =>
      refine .bind (.get (.bind_mono (h.propagate ht) fun alive u hu => ?_))
      cases alive with
      | false => exact h.close _ hu
      | true =>
        rw [Bool.not_true, if_neg Bool.false_ne_true]
        refine .iteBind (I := S.alive path t.domains.focusDelta.length) (fun _ => h.compact hu) (fun _ => hu)
          fun v hv => .bind (.get ?_)
        unfold SearchTree.getNode
        cases hnode : v.tree.node? id with
        | none => exact .bind (.throw (h.alive_fails hv))
        | some node =>
          refine .bind (.pure (.bind_mono (h.rounds hv hnode) fun _ w hw => .bind_mono hw ?_))
          rintro ⟨outcome, bound, lp⟩ x hx
          exact .bind (.modify (.bind (.get (.bind_mono (h.record hx) fun _ y hy => h.conclude hy))))

end Contract

end Search

end BranchAndCut

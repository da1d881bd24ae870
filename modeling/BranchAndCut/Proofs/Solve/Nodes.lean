import BranchAndCut.Proofs.Solve.NodeRounds

/-! # The relaxation during a run

Outside the rounds a node is entered, closed, split and released, and solutions are
looked for. None of this changes the rows, apart from the switch of the path and the
release of nodes. So the relaxation stays in line with the search through a whole run. -/

namespace BranchAndCut

variable {K σ : Type} [Scalar K] {sv : Solver K σ} {F : Footing sv}

namespace Search

variable {s : Search K σ}

/-! ## Operations that leave the rows alone -/

theorem Synced.withTree (h : Synced F s) {tree : SearchTree K} (hnamed : tree.Named) :
    Synced F { s with tree } :=
  h.transfer rfl rfl rfl rfl rfl rfl rfl rfl hnamed

/-- Operations of the tree. -/
theorem Synced.onTree {α : Type} (h : Synced F s) {act : TreeM K α}
    (hact : Ensures act s.tree (fun _ t => t.Named) fun _ t => t.Named) :
    Ensures (onTree act) s (fun _ t => Synced F t) (Fails F) :=
  .onPart (hact.mono (fun _ _ hnamed => h.withTree hnamed) fun _ _ hnamed => .inl (h.withTree hnamed).calm)

theorem Synced.modifyStats (h : Synced F s) (f : Stats → Stats) {post : PUnit → Search K σ → Prop}
    (hpost : ∀ t, Synced F t → post ⟨⟩ t) : Ensures (modifyStats f) s post (Fails F) :=
  .modify (hpost _ (h.transfer rfl rfl rfl rfl rfl rfl rfl rfl h.filed.named))

theorem Synced.attempt {α : Type} (h : Synced F s) (r : Except (Error K) α) :
    Ensures (attempt r) s (fun a t => t = s ∧ r = .ok a) (Fails F) := by
  cases r with
  | ok a => exact .pure ⟨rfl, rfl⟩
  | error e => exact .throw (.inl h.calm)

theorem Synced.closeNode (h : Synced F s) (id : NodeId) (reason : PruneReason) :
    Ensures (closeNode id reason) s (fun _ t => Synced F t) (Fails F) := by
  refine .bind (h.modifyStats _ fun t ht => .bind_mono (ht.onTree (ht.filed.named.close id _)) fun _ u hu => .pure hu)

theorem Synced.keepUnresolved (h : Synced F s) (id : NodeId) :
    Ensures (keepUnresolved id) s (fun _ t => Synced F t) (Fails F) :=
  .bind_mono (h.onTree (h.filed.named.markUnresolved id)) fun _ _ ht => .pure ht

theorem Synced.split (h : Synced F s) (id : NodeId) (d : BranchingDecision K) (objective : K)
    (basis : Option SavedBasis) : Ensures (split id d objective basis) s (fun _ t => Synced F t) (Fails F) :=
  .bind_mono (h.onTree (h.filed.named.pushChildren id d objective basis)) fun _ _ ht =>
    .bind (ht.modifyStats _ fun _ hu => .pure hu)

/-- Taking fixed variables out of their groups. -/
theorem Synced.compactFixed (h : Synced F s) :
    Ensures compactFixed s (fun _ t => Synced F t ∧ t.registry = s.registry) (Fails F) :=
  .modify ⟨h.transfer (Problem.compactAll_costs _ _) rfl rfl rfl rfl rfl rfl rfl h.filed.named, rfl⟩

/-- Starting from the basis of the parent. -/
theorem Synced.warmStart (h : Synced F s) (node : Node K) :
    Ensures (warmStart sv node) s (fun _ t => Synced F t ∧ t = { s with world := t.world }) (Fails F) := by
  obtain ⟨c, hw, ht⟩ := h.carries.tracks
  refine .modify ?_
  split
  · next basis _ => exact ⟨h.world ht (F.restoreBasis hw basis), rfl⟩
  · exact ⟨h, rfl⟩

/-! ## Solutions -/

/-- Offering a solution. -/
theorem Synced.report (h : Synced F s) (x : Array K) : Ensures (report x) s (fun _ t => Synced F t) (Fails F) := by
  unfold Search.report
  refine .bind (.get ?_)
  split
  · exact .pure h
  · next incumbent _ =>
    have hnamed : (s.tree.setHasIncumbent true).Named := h.filed.named.congr rfl
    have hset : Synced F { s with incumbent, tree := s.tree.setHasIncumbent true } :=
      h.transfer rfl rfl rfl rfl rfl rfl rfl rfl hnamed
    exact .bind (.set (.bind_mono (hset.onTree (hnamed.pruneDominated _)) fun _ _ ht => .pure ht))

theorem Synced.trySolution (h : Synced F s) (x : Array K) :
    Ensures (trySolution sv x) s (fun _ t => Synced F t) (Fails F) := by
  unfold Search.trySolution
  refine .bind (.get ?_)
  split
  · exact .pure h
  · split
    · exact .pure h
    · split
      · exact .pure h
      · exact h.report x

theorem Synced.askHeuristic (h : Synced F s) (p : HeuristicPoint K) {heur : Heuristic K σ}
    (hheur : heur ∈ sv.plugins.heuristics) :
    Ensures (askHeuristic p heur) s (fun _ t => Synced F t) (Fails F) := by
  unfold Search.askHeuristic
  refine .bind_mono (h.ensures_onWorld fun c hw _ =>
    (F.find hw heur hheur p).mono (fun _ _ hw' => ⟨hw', trivial⟩) fun _ _ hcalm => hcalm) ?_
  rintro found t ⟨ht, -, -⟩
  split
  · exact .pure ht
  · split
    · exact .bind (.throw (.inl ht.calm))
    · exact .pure ht

theorem Synced.runHeuristics (h : Synced F s) (x : Array K) :
    Ensures (runHeuristics sv x) s (fun _ t => Synced F t) (Fails F) := by
  unfold Search.runHeuristics
  refine .bind (.get (.bind_mono (Ensures.mapM (I := fun _ t => Synced F t) ?_ h) fun proposed t ht => ?_))
  · exact fun heur hheur _ t ht => ht.askHeuristic _ hheur
  · refine (Ensures.forM (I := fun _ t => Synced F t) ?_ ht).mono (fun _ _ hu => hu) fun _ _ hfail => hfail
    rintro (_ | y) rest u hu
    · exact .pure hu
    · refine .bind_mono (hu.trySolution y) fun better v hv => ?_
      split
      · exact hv.modifyStats _ fun _ hw => hw
      · exact .pure hv

/-! ## Splitting -/

/-- Choosing a variable to split leaves alone what the relaxation holds. -/
theorem ensures_select {b : Brancher K σ} (hb : b.custom = sv.scoring) {w : σ} {c : Contents K} (hw : F.Holds w c)
    (bound : K) (vars : List VarId) (x : Array K) (d : Domains K) (processed : Nat) :
    Ensures (b.select bound vars x d processed) w (fun _ w => F.Holds w c ∧ True) fun _ w => F.Calm w := by
  unfold Brancher.select
  dsimp only
  split
  · exact .pure ⟨hw, trivial⟩
  · refine .bind ?_
    unfold Brancher.scores
    split
    · exact .pure (.pure ⟨hw, trivial⟩)
    · next rule hrule =>
      have hw' := F.score hw rule (hb ▸ hrule) (b.candidates vars x) b.pseudocosts
      refine .bind (.modifyGet ?_)
      split
      · exact .bind (.throw (F.calm hw'))
      · exact .pure (.pure ⟨hw', trivial⟩)

theorem Synced.decide? (h : Synced F s) (bound : K) (x : Array K) :
    Ensures (decide? bound x) s (fun _ t => Synced F t) (Fails F) := by
  unfold Search.decide?
  refine .bind (.get (.bind_mono (h.ensures_onWorld fun c hw _ => ensures_select h.scoring hw ..) ?_))
  rintro selected t ⟨ht, -⟩
  split
  · exact .pure ht
  · refine .bind (.get ?_)
    dsimp only
    split
    · exact .pure ht
    · exact (ht.attempt _).mono (fun _ _ hu => hu.1 ▸ ht) fun _ _ hfail => hfail

theorem Synced.branch (h : Synced F s) (id : NodeId) (bound : K) (lp : Relaxation K) :
    Ensures (branch sv id bound lp) s (fun _ t => Synced F t) (Fails F) := by
  unfold Search.branch
  refine .iteBind (I := Synced F) (fun _ => h.runHeuristics lp.x) (fun _ => h) fun t ht => ?_
  refine .bind (.get ?_)
  split
  · exact ht.closeNode id _
  · refine .bind_mono (ht.decide? bound lp.x) fun choice u hu => ?_
    split
    · exact .bind (.get (hu.split id ..))
    · exact .bind (hu.modifyStats _ fun _ hv => hv.keepUnresolved id)

theorem Synced.branchBlindly (h : Synced F s) (id : NodeId) (bound : K) :
    Ensures (branchBlindly id bound) s (fun _ t => Synced F t) (Fails F) := by
  unfold Search.branchBlindly
  refine .bind (h.modifyStats _ fun t ht => .bind (.get (.bind_mono (ht.attempt _) ?_)))
  rintro choice _ ⟨rfl, -⟩
  split
  · exact ht.split id ..
  · exact ht.keepUnresolved id

/-! ## One node -/

theorem Synced.conclude (h : Synced F s) (id : NodeId) (outcome : RoundOutcome) (bound : K)
    (lp : Option (Relaxation K)) : Ensures (conclude sv id outcome bound lp) s (fun _ t => Synced F t) (Fails F) := by
  unfold Search.conclude
  split
  · exact .pure h
  · exact h.closeNode id _
  · exact h.closeNode id _
  · exact h.closeNode id _
  · exact .bind_mono (h.report _) fun _ _ ht => ht.closeNode id _
  · exact h.branch id bound _
  · exact h.branchBlindly id bound

/-- **The rounds of a node** on the path. -/
theorem Synced.runRounds (hfits : ∀ w c g p, F.Fits w c g p) (hadmits : ∀ row, F.Admits row) (h : Synced F s) {node : Node K}
    (hnode : node.id ∈ s.registry.path.map Prod.fst) (depth : Nat) :
    Ensures (runRounds sv node depth) s (fun _ t => Synced F t) (Fails F) := by
  have hrun := (Focus.contract_focused hfits hadmits).run {
      maxRounds := if depth = 0 then sv.settings.maxCutRoundsRoot else sv.settings.maxCutRoundsPerNode
      maxPricingRounds := sv.settings.maxPricingRounds
      pricing := sv.settings.pricingEnabled && !sv.plugins.pricers.isEmpty } {} sv.steps
    (s := {
      search := s
      node := node.id
      depth
      nodeBound := node.dualBound
      pricerBound := Scalar.negInf
      origin := node.origin }) ⟨h, hnode⟩
  unfold Ensures at hrun
  unfold Ensures Search.runRounds
  dsimp only
  split at hrun
  · next heq =>
    rw [heq]
    exact hrun.synced
  · next heq =>
    rw [heq]
    exact hrun

/-- **Processing a node.** -/
theorem Synced.processNode (hfits : ∀ w c g p, F.Fits w c g p) (hadmits : ∀ row, F.Admits row) (h : Synced F s) (id : NodeId) :
    Ensures (processNode sv id) s (fun _ t => Synced F t) (Fails F) := by
  unfold Search.processNode
  refine .bind (.get (.bind_mono (h.attempt _) ?_))
  rintro path _ ⟨rfl, hpath⟩
  refine .bind_mono (h.enterNode path) ?_
  rintro feasible t ⟨ht, htpath, -, -⟩
  have honpath : id ∈ t.registry.path.map Prod.fst := by
    rw [htpath, List.mem_reverse]
    exact SearchTree.mem_pathTo hpath
  dsimp only
  split
  · exact ht.closeNode id _
  refine .bind (.get (.bind_mono ht.propagate ?_))
  rintro alive u ⟨hu, hframe⟩
  have huregistry : u.registry = t.registry := by rw [hframe]
  split
  · exact hu.closeNode id _
  refine .iteBind (I := fun v => Synced F v ∧ v.registry = u.registry) (fun _ => hu.compactFixed) (fun _ => ⟨hu, rfl⟩) ?_
  rintro v ⟨hv, hvregistry⟩
  refine .bind (.get (.bind_mono (hv.attempt _) ?_))
  rintro node _ ⟨rfl, hget⟩
  have hid : node.id = id := by
    unfold SearchTree.getNode at hget
    split at hget
    · next hn =>
      cases hget
      exact hv.filed.named _ _ hn
    · cases hget
  refine .bind_mono (hv.warmStart node) ?_
  rintro _ w ⟨hw, hwframe⟩
  have hnode : node.id ∈ w.registry.path.map Prod.fst := by
    rw [hwframe, hid, hvregistry, huregistry]
    exact honpath
  refine .bind_mono (hw.runRounds hfits hadmits hnode _) ?_
  rintro ⟨outcome, bound, lp⟩ x hx
  have hraised : Synced F { x with tree := x.tree.modifyNode id (·.raiseBound bound) } :=
    hx.withTree (hx.filed.named.modifyNode id _)
  refine .bind (.modify (.bind (.get (.bind_mono (hraised.onTree ?_) fun _ y hy => hy.conclude ..))))
  exact hraised.filed.named.recordChanges id _

/-! ## The search -/

/-- **One iteration.** -/
theorem Synced.step (hfits : ∀ w c g p, F.Fits w c g p) (hadmits : ∀ row, F.Admits row) (h : Synced F s) :
    Ensures (step sv) s (fun _ t => Synced F t) (Fails F) := by
  unfold Search.step
  refine .bind (.get ?_)
  split
  · exact .pure h
  refine .bind (.get (.bind_mono (h.onTree (h.filed.named.popNext _)) fun next t ht => ?_))
  split
  · exact .bind (.get (.pure ht))
  refine .bind (ht.modifyStats _ fun u hu => .bind_mono (hu.processNode hfits hadmits _) fun result v hv => ?_)
  refine .bind_mono hv.releaseNodes fun _ w ⟨hw, _⟩ => ?_
  split
  · exact .pure hw
  · exact .bind (.modify (.pure (hw.transfer rfl rfl rfl rfl rfl rfl rfl rfl (hw.filed.named.congr rfl))))

theorem Synced.loop (hfits : ∀ w c g p, F.Fits w c g p) (hadmits : ∀ row, F.Admits row) (h : Synced F s) (fuel : Nat) :
    Ensures (loop sv fuel) s (fun _ t => Synced F t) (Fails F) := by
  induction fuel generalizing s with
  | zero => exact .throw (.inl h.calm)
  | succ fuel ih =>
    refine .bind_mono (h.step hfits hadmits) fun status t ht => ?_
    split
    · exact .pure ht
    · exact ih ht

/-! ## A whole run -/

/-- A search before its start: nothing is in the relaxation, the pool and the tree. -/
structure Fresh (F : Footing sv) (s : Search K σ) : Prop where
  filed : s.Filed
  builtIn : s.handlers.custom = #[]
  empty : F.Holds s.world {}
  lpRows : s.lpRows = ∅
  staleCutRows : s.staleCutRows = []
  pool : s.pool.cuts = #[]
  scoring : s.brancher.custom = sv.scoring

/-- **Setting up** puts in a column for each variable and the rows of the active constraints. -/
theorem Fresh.setUp (h : Fresh F s) :
    Ensures (setUp sv) s (fun _ t => Synced F t ∧ s.Relaxes t) (Fails F) := by
  have hcols : ∀ col ∈ (List.range s.problem.numVars).map fun v =>
      ({ var := v, cost := s.problem.cost v } : NewColumn K), col.entries = [] := fun col hcol => by
    obtain ⟨v, -, rfl⟩ := List.mem_map.mp hcol
    rfl
  have hkeys : ∀ col ∈ (List.range s.problem.numVars).map fun v =>
      ({ var := v, cost := s.problem.cost v } : NewColumn K), ∀ e ∈ col.entries, ∀ id, e.1 ≠ .cut id :=
    fun col hcol e he => by
      rw [hcols col hcol] at he
      cases he
  have hshows : ∀ id row, ¬ s.pool.Shows id row := by
    rintro id row ⟨c, hc, -⟩
    rw [h.pool] at hc
    exact (Array.not_mem_empty c hc).elim
  have hnone : ∀ id : ConsId, id ∉ s.lpRows := fun id => by
    rw [h.lpRows]
    exact Std.TreeMap.not_mem_emptyc
  unfold Search.setUp
  refine .bind (.get (bind_onWorld (F.addColumns h.empty _ hkeys) fun _ w hw => ?_))
  have hcarries : Carries F { s with world := w } (fun _ => False) [] := by
    refine ⟨h.builtIn, ⟨_, hw, ?_, fun id k => ?_, fun id n hn => ?_, fun id _ row => ?_, ?_⟩, fun id => ?_⟩
    · rw [Contents.addColumns_costs, List.map_map]
      exact s.problem.map_cost_range
    · rw [Contents.addColumns_row _ hcols, if_neg (hnone id)]
    · change s.lpRows[id]? = some n at hn
      rw [h.lpRows, Std.TreeMap.getElem?_emptyc] at hn
      cases hn
    · rw [Contents.addColumns_row _ hcols]
      exact ⟨fun hrow => (hshows id row hrow).elim, fun hrow => by cases hrow.2⟩
    · intro key hkey
      change key ∈ s.staleCutRows at hkey
      rw [h.staleCutRows] at hkey
      cases hkey
    · exact ⟨fun hid => (hnone id hid).elim, fun hid => hid.1.elim⟩
  refine (hcarries.addAll _).mono ?_ fun _ _ hfail => hfail
  rintro _ t ⟨hr, ht⟩
  have hregistry : t.registry = s.registry := hr.part Search.registry fun _ _ _ _ => rfl
  have hpool : t.pool = s.pool := hr.part Search.pool fun _ _ _ _ => rfl
  have hbrancher : t.brancher = s.brancher := hr.part Search.brancher fun _ _ _ _ => rfl
  refine ⟨⟨(h.filed.relaxes (.of ..)).relaxes hr, ht.congr fun id => ?_, fun c hc => ?_, hbrancher ▸ h.scoring⟩,
    Relaxes.trans (.of ..) hr⟩
  · rw [hregistry, false_or]
    exact h.filed.registry.mirrors.mem_allActive.symm
  · rw [hpool, h.pool] at hc
    exact (Array.not_mem_empty c hc).elim

/-- **A run** keeps the relaxation in line with the search. -/
theorem Fresh.run (hfits : ∀ w c g p, F.Fits w c g p) (hadmits : ∀ row, F.Admits row) (h : Fresh F s) :
    Ensures (run sv) s (fun _ t => Synced F t) (Fails F) := by
  unfold Search.run
  refine .bind_mono h.setUp fun _ t ⟨ht, _⟩ => .bind (.get ?_)
  split
  · exact .bind (.get (.pure ht))
  · refine .bind_mono (ht.onTree (ht.filed.named.createRoot _)) fun _ u hu => ?_
    exact .bind_mono (hu.loop hfits hadmits sv.steps) fun _ v hv => .bind (.get (.pure hv))

end Search

end BranchAndCut

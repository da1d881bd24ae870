import BranchAndCut.Proofs.Exact
import BranchAndCut.Proofs.Solve.Rearrangement

/-! # Runs over rearranged problems

The rounds of a node and the search around them go the same way when groups are in another
order, so that a solve has the same outcome. -/

namespace BranchAndCut

variable {K σ α : Type} [Scalar K] {sv : Solver K σ}

namespace Focus

open Search

/-- The nodes are the same, in searches that differ at most in the order of the groups. -/
def Rearranged (f g : Focus K σ) : Prop := ∃ t, f.search.Rearranged t ∧ g = { f with search := t }

/-! ## Steps -/

theorem onSearch_respects {act : SearchM K σ α} (h : Respects Search.Rearranged act) :
    Respects Rearranged (onSearch act) := by
  refine .onPart h ?_ ?_
  · rintro f _ ⟨t, ht, rfl⟩
    exact ht
  · rintro f _ ⟨t, ht, rfl⟩ u v huv
    exact ⟨v, huv, rfl⟩

/-- Of the search nothing is read that depends on the problem. -/
theorem get_respects {f : Focus K σ → FocusM K σ α} (hsame : ∀ (g : Focus K σ) q, g.search.problem.Rearranged q →
    f { g with search := { g.search with problem := q } } = f g) (hf : ∀ g, Respects Rearranged (f g)) :
    Respects Rearranged (MonadState.get >>= f) := by
  refine .get_bind ?_ hf
  rintro g _ ⟨_, ⟨q, hq, rfl⟩, rfl⟩
  exact hsame g q hq

/-- The search is neither read nor changed. -/
theorem modify_respects {f : Focus K σ → Focus K σ}
    (hsame : ∀ g t, f { g with search := t } = { f g with search := t }) (hkeep : ∀ g, (f g).search = g.search) :
    Respects Rearranged (modify f : FocusM K σ PUnit) := by
  refine .modify ?_
  rintro g _ ⟨t, ht, rfl⟩
  exact ⟨t, (hkeep g).symm ▸ ht, hsame g t⟩

theorem solveOnce_respects : Respects Rearranged (solveOnce sv) :=
  onSearch_respects <| .bind (onWorld_respects _) fun _ => .bind (modifyStats_respects _) fun _ => .pure _

theorem solveReliably_respects : Respects Rearranged (solveReliably sv) := by
  refine .bind solveOnce_respects fun lp => .ite (.bind (onSearch_respects ?_) fun _ => solveOnce_respects) (.pure _)
  exact .bind (Search.modify_respects (fun _ _ => rfl) fun _ => rfl) fun _ => modifyStats_respects _

theorem ageCuts_respects (lp : Relaxation K) : Respects Rearranged (ageCuts lp : FocusM K σ Unit) :=
  onSearch_respects <| .bind (modifyGet_respects (fun _ _ => rfl) fun _ => rfl) fun ids => retireCutRows_respects ids

theorem learnGain_respects (lp : Relaxation K) : Respects Rearranged (learnGain lp : FocusM K σ Unit) := by
  refine .modify ?_
  rintro ⟨search, node, depth, nodeBound, pricerBound, origin, lp⟩ _ ⟨_, ⟨q, hq, rfl⟩, rfl⟩
  cases origin with
  | none => exact ⟨_, ⟨q, hq, rfl⟩, rfl⟩
  | some o => exact ⟨_, ⟨q, hq, rfl⟩, rfl⟩

theorem solve_respects : Respects Rearranged (solve sv) := by
  refine .bind (onSearch_respects ?_) fun _ => .bind solveReliably_respects fun lp => ?_
  · exact .bind flushStaleRows_respects fun _ => Search.get_respects (fun _ _ => rfl) fun _ => onWorld_respects _
  have hlast : Respects Rearranged (do
      modify fun f => { f with lp := some lp }
      pure lp.status : FocusM K σ RelaxationStatus) :=
    .bind (modify_respects (fun _ _ => rfl) fun _ => rfl) fun _ => .pure _
  refine .ite (.bind (ageCuts_respects lp) fun _ => .bind (learnGain_respects lp) fun _ => ?_) hlast
  exact .bind (modify_respects (fun _ _ => rfl) fun _ => rfl) fun _ => hlast

theorem askPricer_respects (p : PricingPoint K) (pricer : Pricer K σ) : Respects Rearranged (askPricer p pricer) := by
  refine .bind (onSearch_respects (onWorld_respects _)) fun found => ?_
  split
  · exact .pure _
  · exact .ite (.throw_bind _ _) (.bind (modify_respects (fun _ _ => rfl) fun _ => rfl) fun _ => .pure _)

theorem price_respects : Respects Rearranged (price sv) := by
  refine get_respects (fun g q hq => ?_) fun g => ?_
  · obtain ⟨groups, rfl⟩ := hq.groups
    rfl
  split
  · exact .pure _
  · refine .bind (.mapM fun pricer => askPricer_respects _ pricer) fun columns => ?_
    exact .bind (.forM fun column => onSearch_respects (addPricedColumn_respects _ _)) fun _ => .pure _

theorem isFeasible_respects : Respects Rearranged (isFeasible sv) := by
  refine get_respects (fun g q hq => ?_) fun g => ?_
  · have hintegral := fun x => Search.Rearranged.isIntegralAt ⟨q, hq, rfl⟩ sv.settings.intFeasTol x
    simp only [hintegral]
    rfl
  · split <;> exact .pure _

theorem constraintCuts_respects (p : Fractional K) :
    Respects Search.Rearranged (constraintCuts p : SearchM K σ (List (Cut K))) := by
  refine Search.get_respects (fun _ _ => rfl) fun s => .bind (.mapM fun h => ?_) fun cuts => .pure _
  exact .ite (.pure _) (onWorld_respects _)

theorem planeCuts_respects (p : Fractional K) : Respects Search.Rearranged (planeCuts sv p) := by
  refine Search.get_respects (fun _ _ => rfl) fun s => ?_
  have hplugins : ∀ gomory : List (Cut K), Respects Search.Rearranged (do
      let cuts ← sv.plugins.separators.mapM fun sep => onWorld (sep.separate p sv.oracle)
      pure (gomory ++ cuts.flatten)) :=
    fun gomory => .bind (.mapM fun sep => onWorld_respects _) fun cuts => .pure _
  split
  · exact hplugins []
  · exact .bind (attempt_respects _) hplugins

theorem scored_respects (x : Array K) (cut : Cut K) : Respects Search.Rearranged (scored sv x cut) :=
  .ite (.throw_bind _ _) (.pure _)

theorem addCut_respects (node : NodeId) (depth : Nat) (out : Separated) (cut : Cut K) :
    Respects Search.Rearranged (addCut sv node depth out cut) := by
  refine .ite (.bind (addLocalCut_respects node cut) fun _ => .pure _) ?_
  refine .bind (modifyGet_respects (fun _ _ => rfl) fun _ => rfl) fun (id, duplicate) => ?_
  exact .ite (.pure _) (.bind (addCutRow_respects id) fun _ => .pure _)

/-- The best cuts are entered, after those that were taken up again. -/
theorem enterBest_respects (node : NodeId) (depth : Nat) (cuts : List (Cut K)) (reactivated : List Nat) (x : Array K) :
    Respects Search.Rearranged (do
      let cuts ← cuts.filterMapM (scored sv x)
      let best := (cuts.mergeSort fun a b => Scalar.totalOrder a.1 b.1 != .lt).take sv.settings.cutsPerRound
      reactivated.forM (addCutRow sv)
      let out ← best.foldlM (fun out cut => addCut sv node depth out cut.2) { cuts := reactivated.length }
      modifyStats fun st => { st with cutsAdded := st.cutsAdded + out.cuts }
      pure out) := by
  refine .bind (.filterMapM fun cut => scored_respects x cut) fun cuts => ?_
  refine .bind (.forM fun id => addCutRow_respects id) fun _ => ?_
  exact .bind (.foldlM fun out cut => addCut_respects node depth out cut.2) fun out =>
    .bind (modifyStats_respects _) fun _ => .pure _

theorem separate_respects (enforceOnly : Bool) : Respects Rearranged (separate sv enforceOnly) := by
  refine get_respects (fun g q hq => rfl) fun g => ?_
  split
  · exact .pure _
  · refine onSearch_respects (.bind (constraintCuts_respects _) fun enforced => ?_)
    refine .ite (enterBest_respects g.node g.depth _ [] _) (.bind (planeCuts_respects _) fun planes => ?_)
    exact .bind (modifyGet_respects (fun _ _ => rfl) fun _ => rfl) fun reactivated => enterBest_respects _ _ _ _ _

/-- **The operations of the rounds** go the same way when groups are in another order. -/
theorem driver_respectful : (driver sv).Respectful Rearranged where
  solve := solve_respects
  price := price_respects
  boundExceeded := by
    rintro g _ ⟨_, ⟨q, -, rfl⟩, rfl⟩
    rfl
  isFeasible := isFeasible_respects
  separate := separate_respects
  propagate := onSearch_respects propagate_respects

end Focus

namespace Search

/-! ## The search -/

theorem runRounds_respects (node : Node K) (depth : Nat) : Respects Rearranged (runRounds sv node depth) := by
  intro s t hst
  have hdriver : (Focus.driver sv).Respectful Focus.Rearranged := Focus.driver_respectful
  have hrun := fun limits => hdriver.run limits {} sv.steps
    { search := s, node := node.id, depth, nodeBound := node.dualBound, pricerBound := Scalar.negInf,
      origin := node.origin } _ ⟨t, hst, rfl⟩
  unfold Agrees at hrun ⊢
  unfold runRounds
  dsimp only at hrun ⊢
  generalize hlimits : ({ maxRounds := _, maxPricingRounds := _, pricing := _ } : RoundLimits) = limits
  specialize hrun limits
  split at hrun
  · next a f b g hs ht =>
    obtain ⟨rfl, u, hfg, rfl⟩ := hrun
    rw [hs, ht]
    exact ⟨rfl, hfg⟩
  · next e f e' g hs ht =>
    obtain ⟨rfl, u, hfg, rfl⟩ := hrun
    rw [hs, ht]
    exact ⟨rfl, hfg⟩
  · exact hrun.elim

theorem conclude_respects (id : NodeId) (outcome : RoundOutcome) (bound : K) (lp : Option (Relaxation K)) :
    Respects Rearranged (conclude sv id outcome bound lp) := by
  unfold conclude
  split
  · exact .pure _
  · exact closeNode_respects _ _
  · exact closeNode_respects _ _
  · exact closeNode_respects _ _
  · exact .bind (report_respects _) fun _ => closeNode_respects _ _
  · exact branch_respects _ _ _
  · exact branchBlindly_respects _ _

/-- **A node** is processed in the same way. -/
theorem processNode_respects (id : NodeId) : Respects Rearranged (processNode sv id) := by
  refine get_respects (fun _ _ => rfl) fun s => .bind (attempt_respects _) fun path => ?_
  refine .bind (enterNode_respects path) fun feasible => .ite (closeNode_respects _ _) ?_
  refine get_respects (fun _ _ => rfl) fun s => .bind propagate_respects fun alive => .ite (closeNode_respects _ _) ?_
  refine .iteBind compactFixed_respects fun _ => ?_
  refine get_respects (fun _ _ => rfl) fun s => .bind (attempt_respects _) fun node => ?_
  refine .bind (warmStart_respects node) fun _ => .bind (runRounds_respects node _) fun (outcome, bound, lp) => ?_
  refine .bind (modify_respects (fun _ _ => rfl) fun _ => rfl) fun _ => get_respects (fun _ _ => rfl) fun s => ?_
  exact .bind (onTree_respects _) fun _ => conclude_respects id outcome bound lp

theorem step_respects : Respects Rearranged (step sv) := by
  refine get_respects (fun _ _ => rfl) fun s => ?_
  split
  · exact .pure _
  refine get_respects (fun _ _ => rfl) fun s => .bind (onTree_respects _) fun next => ?_
  cases next with
  | none => exact get_respects (fun _ _ => rfl) fun s => .pure _
  | some id =>
    refine .bind (modifyStats_respects _) fun _ => .bind (processNode_respects id) fun result => ?_
    refine .bind releaseNodes_respects fun _ => ?_
    cases result with
    | unbounded => exact .pure _
    | «continue» => exact .bind (modify_respects (fun _ _ => rfl) fun _ => rfl) fun _ => .pure _

/-- **The loop** takes the same steps. -/
theorem loop_respects (fuel : Nat) : Respects Rearranged (loop sv fuel) := by
  induction fuel with
  | zero => exact .throw _
  | succ fuel ih =>
    refine .bind step_respects fun status => ?_
    cases status with
    | none => exact ih
    | some status => exact .pure _

theorem Rearranged.finish {s t : Search K σ} (h : Rearranged s t) (status : Status) :
    t.finish status = s.finish status := by
  obtain ⟨q, hq, rfl⟩ := h
  obtain ⟨groups, rfl⟩ := hq.groups
  rfl

/-- **A run** has the same outcome. -/
theorem run_respects : Respects Rearranged (run sv) := by
  have hfinish : ∀ status, Respects Rearranged (do return (← get).finish status : SearchM K σ (Outcome K)) :=
    fun status => .get_bind (fun s t hst => by rw [hst.finish]) fun s => .pure _
  refine .bind setUp_respects fun _ => get_respects (fun _ _ => rfl) fun s => .ite (hfinish _) ?_
  exact .bind (onTree_respects _) fun _ => .bind (loop_respects _) fun status => hfinish status

/-! ## The start -/

/-- Locks and watchers are those of the constraints. -/
theorem Rearranged.lockAll {s t : Search K σ} (h : Rearranged s t) (ids : List ConsId) :
    Rearranged (ids.foldl (fun s id => s.lockCons (s.registry.handler id) (s.locksOf id)) s)
      (ids.foldl (fun s id => s.lockCons (s.registry.handler id) (s.locksOf id)) t) := by
  induction ids generalizing s t with
  | nil => exact h
  | cons id ids ih =>
    obtain ⟨q, hq, rfl⟩ := h
    exact ih ⟨q, hq, rfl⟩

theorem ofModel_rearranged {m : Model K σ} {q : Problem K} (h : m.problem.Rearranged q) (w : σ) :
    Rearranged (ofModel sv m w) (ofModel sv { m with problem := q } w) := by
  have hall := h.asBinaryAll (List.range m.problem.numVars) fun v => List.mem_range.mp
  unfold ofModel
  dsimp only
  rw [h.numVars]
  generalize (List.range m.problem.numVars).foldl asBinary m.problem = start at hall ⊢
  generalize (List.range m.problem.numVars).foldl asBinary q = start' at hall ⊢
  obtain ⟨groups, rfl⟩ := hall.groups
  generalize hs : (List.foldl _ _ _ : Search K σ) = s
  generalize ht : (List.foldl _ _ _ : Search K σ) = t
  have hst : Rearranged s t := by
    rw [← hs, ← ht]
    exact Rearranged.lockAll ⟨_, hall, rfl⟩ _
  obtain ⟨q', hq', rfl⟩ := hst
  exact ⟨q', hq', rfl⟩

end Search

namespace Solver

/-- **A solve** has the same outcome, and leaves the same world. -/
theorem solve_rearranged (sv : Solver K σ) {m : Model K σ} {q : Problem K} (h : m.problem.Rearranged q) (w : σ) :
    sv.solve { m with problem := q } w = sv.solve m w := by
  have hrun : Agrees Search.Rearranged (Search.run sv) (.ofModel sv m w) (Search.run sv)
      (.ofModel sv { m with problem := q } w) := Search.run_respects _ _ (Search.ofModel_rearranged h w)
  unfold solve
  cases sv.settings.validate with
  | error flaw => rfl
  | ok _ =>
    dsimp only
    unfold Agrees at hrun
    split at hrun
    · next out s out' t hs ht =>
      obtain ⟨rfl, q', -, rfl⟩ := hrun
      rw [hs, ht]
    · next e s e' t hs ht =>
      obtain ⟨rfl, q', -, rfl⟩ := hrun
      rw [hs, ht]
    · exact hrun.elim

/-- **The choice of a split** depends on the set of variables to choose from, not on their
order: candidates, splits at fractional values and halved domains are the same ones for all
lists of the same variables. A split at a fractional value is that of the candidate of the
greatest score, with the least variable if there are several, and there is none exactly if no
variable is fractional; only a supplied rule can fail. So the order of the groups has no
influence: searches that differ in it go the same way from any moment on, and solves have the
same outcome for all problems that calls have made of the same variables. -/
theorem choice_unordered [Scalar.Ordered K] [Scalar.PositiveMul K] :
    (∀ (b : Brancher K σ) (nodeBound : K) (vars vars' : List VarId) (x : Array K) (d : Domains K) (n : Nat),
      vars.Perm vars' → b.candidates vars x = b.candidates vars' x ∧
        b.select nodeBound vars x d n = b.select nodeBound vars' x d n ∧
        ∀ guess, b.halve nodeBound vars guess d = b.halve nodeBound vars' guess d) ∧
    (∀ (b : Brancher K σ) (nodeBound : K) (vars : List VarId) (x : Array K) (d : Domains K) (n : Nat) (w : σ),
      Ensures (b.select nodeBound vars x d n) w
        (fun choice _ => (choice = none ∧ ∀ v ∈ vars, ¬ Brancher.IsFractional b.intTol x v) ∨
          (∃ v ∈ vars, Brancher.IsFractional b.intTol x v) ∧ ∃ best,
            Brancher.Leads ((b.candidates vars x).zip (b.scoresAt (b.candidates vars x) n w)) best ∧
              choice = some (b.dichotomy nodeBound best.1 d))
        fun e _ => ∃ rule ∈ b.custom, ∃ count,
          e = .plugin rule.name (.scoreCount count (b.candidates vars x).length)) ∧
    (∀ (sv : Solver K σ) (s t : Search K σ) (steps : Nat), s.Rearranged t →
      Agrees Search.Rearranged (Search.loop sv steps) s (Search.loop sv steps) t) ∧
    ∀ (sv : Solver K σ) (m : Model K σ) (q : Problem K) (fixed fixed' : List VarId) (w : σ),
      m.problem.Called fixed → q.Called fixed' → (∀ v, v ∈ fixed' ↔ v ∈ fixed) →
        (∃ groups, q = { m.problem with groups }) → sv.solve { m with problem := q } w = sv.solve m w := by
  refine ⟨fun b nodeBound vars vars' x d n h => ?_, fun b => b.ensures_select,
    fun sv s t steps => Search.loop_respects steps s t, fun sv m q fixed fixed' w hp hq hfixed hsame => ?_⟩
  · exact ⟨b.candidates_perm h x, b.select_perm nodeBound h x d n, fun guess => b.halve_perm nodeBound h guess d⟩
  · exact sv.solve_rearranged (.of_called hp hq hsame hfixed) w

/-- Two binary variables. -/
def binaries : Problem (Exact ℚ) :=
  ((Problem.new "binaries").afterAddVar "x" .binary 0 1 1).afterAddVar "y" .binary 0 1 1

/-- The same variables after the first one has become an integer variable and a binary one again. -/
def swapped : Problem (Exact ℚ) := (binaries.afterChangeType 0 .integer).afterChangeType 0 .binary

theorem called_binaries : binaries.Called [] := .addVar (.addVar (.new _) ..) ..

theorem called_swapped : swapped.Called [] :=
  .changeType (.changeType called_binaries 0 (by decide +kernel) _) 0 (by decide +kernel) _

theorem same_swapped : ∃ groups, swapped = { binaries with groups } := ⟨swapped.groups, by decide +kernel⟩

/-- A split between variables of equal scores, and solves over both orders. -/
theorem choice_unordered_swapped : binaries.branchable = [0, 1] ∧ swapped.branchable = [1, 0] ∧
    (let b : Brancher (Exact ℚ) (KeyedSimplex (Exact ℚ)) := .new .mostFractional 2 1e-6
     let d : Domains (Exact ℚ) := .new #[0, 0] #[1, 1] #[true, true] 1e-6
     b.select 0 binaries.branchable #[0.5, 0.5] d 0 = b.select 0 swapped.branchable #[0.5, 0.5] d 0) ∧
    (let sv : Solver (Exact ℚ) (KeyedSimplex (Exact ℚ)) := .plain .default
     let w : KeyedSimplex (Exact ℚ) := { settings := .default }
     Agrees Search.Rearranged (Search.loop sv 7) (.ofModel sv { problem := binaries } w) (Search.loop sv 7)
       (.ofModel sv { problem := swapped } w) ∧
     sv.solve { problem := swapped } w = sv.solve { problem := binaries } w) := by
  have horder : binaries.branchable = [0, 1] ∧ swapped.branchable = [1, 0] := by decide +kernel
  have hrearranged : binaries.Rearranged swapped := .of_called called_binaries called_swapped same_swapped fun _ => .rfl
  obtain ⟨hsame, -, hloop, hsolve⟩ := choice_unordered (K := Exact ℚ) (σ := KeyedSimplex (Exact ℚ))
  refine ⟨horder.1, horder.2, (hsame _ 0 _ _ _ _ 0 ?_).2.1,
    hloop _ _ _ 7 (Search.ofModel_rearranged hrearranged _), ?_⟩
  · rw [horder.1, horder.2]
    exact .swap 1 0 []
  · exact hsolve (.plain .default) { problem := binaries } swapped [] [] { settings := .default }
      called_binaries called_swapped (fun _ => .rfl) same_swapped

end Solver

end BranchAndCut

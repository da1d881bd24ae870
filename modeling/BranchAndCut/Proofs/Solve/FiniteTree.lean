import BranchAndCut.Proofs.Solve.Descent

/-! # The tree is finite

Where the variables that are split have bounds, each branching takes at least one off the
sum of their widths. So no node lies deeper than that sum tells, and the tree is part of a
binary tree of that depth, however nodes are selected and variables chosen. -/

namespace BranchAndCut

/-! ## The problem a search starts with -/

namespace Problem

section

variable [Rooted ℚ] {p q : Problem (Exact ℚ)} {v : VarId}

/-- The variables have the same bounds, and the same of them may be split. -/
structure SameRanges (p q : Problem (Exact ℚ)) : Prop where
  numVars : q.numVars = p.numVars
  lower : ∀ v, (q.var v).lower = (p.var v).lower
  upper : ∀ v, (q.var v).upper = (p.var v).upper
  branchable : ∀ v, (q.var v).type.isBranchable = (p.var v).type.isBranchable

theorem SameRanges.splittable (h : SameRanges p q) : q.splittable = p.splittable := by
  unfold Problem.splittable
  rw [h.numVars]
  exact Finset.filter_congr fun v _ => by rw [h.branchable]

theorem SameRanges.spread (h : SameRanges p q) : q.spread = p.spread := by
  unfold Problem.spread
  rw [h.splittable]
  exact Finset.sum_congr rfl fun v _ => by rw [h.lower, h.upper]

/-- A variable that is taken for a binary one keeps its bounds. -/
theorem Tidy.asBinary_ranges (h : p.Tidy) (hv : v < p.numVars) : SameRanges p (Search.asBinary p v) := by
  unfold Search.asBinary
  dsimp only
  split
  · next hbinary =>
    rw [Bool.and_eq_true, Bool.and_eq_true] at hbinary
    obtain ⟨⟨htype, hlower⟩, hupper⟩ := hbinary
    have htype : (p.var v).type = .integer := of_decide_eq_true htype
    obtain ⟨hwholeLower, hwholeUpper⟩ := h.whole v hv (by unfold isIntegral; rw [htype]; rfl)
    split
    · next q hchange =>
      rcases changeType_spec hchange with rfl | rfl
      · exact ⟨rfl, fun _ => rfl, fun _ => rfl, fun _ => rfl⟩
      have hnormal : normalize .binary (p.var v).lower (p.var v).upper = ((p.var v).lower, (p.var v).upper) := by
        refine Prod.ext ?_ ?_
        · show Scalar.max (Scalar.ceil (p.var v).lower) 0 = (p.var v).lower
          rw [Exact.ceil_whole hwholeLower]
          exact Exact.max_eq_left' (of_decide_eq_true hlower)
        · show Scalar.min (Scalar.floor (p.var v).upper) 1 = (p.var v).upper
          rw [show Scalar.floor (p.var v).upper = (p.var v).upper from hwholeUpper]
          exact Exact.min_eq_left' (of_decide_eq_true hupper)
      rw [hnormal]
      have hvar := p.var_modify hv (fun x => { x with type := .binary, lower := (p.var v).lower, upper := (p.var v).upper })
        (if p.isActive v then (p.groups.remove (p.var v).type v).insert .binary v else p.groups)
      refine ⟨Array.size_modify, fun w => ?_, fun w => ?_, fun w => ?_⟩
      · rw [hvar]
        split
        · next heq => rw [heq]
        · rfl
      · rw [hvar]
        split
        · next heq => rw [heq]
        · rfl
      · rw [hvar]
        split
        · next heq =>
          rw [heq, htype]
          rfl
        · rfl
    · exact ⟨rfl, fun _ => rfl, fun _ => rfl, fun _ => rfl⟩
  · exact ⟨rfl, fun _ => rfl, fun _ => rfl, fun _ => rfl⟩

theorem Tidy.foldl_asBinary_ranges (h : p.Tidy) {vars : List VarId} (hvars : ∀ v ∈ vars, v < p.numVars) :
    SameRanges p (vars.foldl Search.asBinary p) := by
  induction vars generalizing p with
  | nil => exact ⟨rfl, fun _ => rfl, fun _ => rfl, fun _ => rfl⟩
  | cons v vars ih =>
    obtain ⟨htidy, hsize⟩ := h.asBinary (hvars v List.mem_cons_self)
    have hfirst := h.asBinary_ranges (hvars v List.mem_cons_self)
    have hrest := ih htidy fun w hw => hsize ▸ hvars w (List.mem_cons_of_mem _ hw)
    exact ⟨hrest.numVars.trans hfirst.numVars, fun w => (hrest.lower w).trans (hfirst.lower w),
      fun w => (hrest.upper w).trans (hfirst.upper w), fun w => (hrest.branchable w).trans (hfirst.branchable w)⟩

omit [Rooted ℚ] in
theorem getD_vars {K α : Type} [Scalar K] (p : Problem K) (f : Variable K → α) (z : α) (v : VarId) :
    (p.vars.map f).getD v z = if v < p.numVars then f (p.var v) else z := getD_map ..

/-- **The domains** of the variables, none of them empty. -/
theorem Tidy.sound {tol : Exact ℚ} (h : p.Tidy) (hpos : 0 < tol) (hhalf : tol < 0.5)
    (hempty : (Domains.new (p.vars.map (·.lower)) (p.vars.map (·.upper)) (p.vars.map (·.type.isIntegral))
      tol).hasEmptyDomain = false) :
    Domains.Sound tol p.RoundsAt (Domains.new (p.vars.map (·.lower)) (p.vars.map (·.upper))
      (p.vars.map (·.type.isIntegral)) tol) := by
  obtain ⟨b, htol, hb, -⟩ := Exact.exists_fin_of_tolerance hpos hhalf
  refine ⟨(h.levels hpos hhalf hempty).top, fun v hv => ?_, fun v => ?_, fun v => ?_⟩
  · unfold Domains.isIntegral Domains.new at hv
    rw [getD_vars] at hv
    split at hv
    · next hlt => exact ⟨hlt, hv⟩
    · cases hv
  · unfold Domains.lb Domains.ub Domains.new
    rw [getD_vars, getD_vars]
    split
    · next hlt => exact ⟨Exact.ne_nan_of_defined (h.defined v hlt).1, Exact.ne_nan_of_defined (h.defined v hlt).2⟩
    · exact ⟨nofun, nofun⟩
  · by_cases hlt : v < p.numVars
    · exact Domains.new_nonempty hempty (Nat.lt_of_lt_of_eq hlt Array.size_map.symm)
        (Nat.lt_of_lt_of_eq hlt Array.size_map.symm)
    · unfold Domains.lb Domains.ub Domains.new
      rw [getD_vars, getD_vars, if_neg hlt, if_neg hlt, htol, Exact.zero_def, Exact.fin_add, Exact.fin_lt]
      linarith

/-- The variables that may be split have the room that the problem tells. -/
theorem roomy_new {tol : Exact ℚ} (hsmall : ∀ v ∈ p.splittable, ∃ a b : ℚ, (p.var v).lower = .fin a ∧
    (p.var v).upper = .fin b ∧ |a| < 10 ^ 8 ∧ |b| < 10 ^ 8) :
    Domains.Roomy p.splittable (p.spread - 1) (Domains.new (p.vars.map (·.lower)) (p.vars.map (·.upper))
      (p.vars.map (·.type.isIntegral)) tol) := by
  have hlt : ∀ v ∈ p.splittable, v < p.numVars := fun v hv => Finset.mem_range.mp (Finset.mem_filter.mp hv).1
  have hread : ∀ v ∈ p.splittable, ∀ {α : Type} (f : Variable (Exact ℚ) → α) z, (p.vars.map f).getD v z = f (p.var v) :=
    fun v hv _ f z => (p.getD_vars f z v).trans (if_pos (hlt v hv))
  refine ⟨fun v hv => ?_, fun v hv => ?_, ?_⟩
  · unfold Domains.isIntegral Domains.new
    rw [hread v hv]
    exact VarType.isIntegral_of_isBranchable (Finset.mem_filter.mp hv).2
  · unfold Domains.Small Domains.lb Domains.ub Domains.new
    rw [hread v hv, hread v hv]
    exact hsmall v hv
  · have hwidth : (Domains.new (p.vars.map (·.lower)) (p.vars.map (·.upper)) (p.vars.map (·.type.isIntegral))
        tol).width p.splittable = p.spread := Finset.sum_congr rfl fun v hv => by
      unfold Domains.widthAt Domains.lb Domains.ub Domains.new
      rw [hread v hv, hread v hv]
    rw [hwidth, sub_add_cancel]
    exact le_of_eq (add_zero _)

end

end Problem

namespace Search

section

variable {σ : Type} [Rooted ℚ] {sv : Solver (Exact ℚ) σ} {m : Model (Exact ℚ) σ} {w : σ} {p : Problem (Exact ℚ)}
  {s t : Search (Exact ℚ) σ} {id : NodeId}

/-! ## The root -/

/-- The built-in families alone, and no sets. -/
theorem ofModel_plain (hm : m.Assembled) (hcustom : m.handlers.custom = #[]) (hsets : m.handlers.sos1.conss = #[]) :
    Plain (ofModel sv m w).problem sv.settings.intFeasTol (ofModel sv m w) := by
  obtain ⟨hproblem, -, hhandlers, -⟩ := ofModel_parts sv m w
  have htidy : (ofModel sv m w).problem.Tidy := by
    rw [hproblem]
    exact hm.tidy.foldl_asBinary fun v => List.mem_range.mp
  refine ⟨hhandlers ▸ hcustom, hhandlers ▸ hsets, htidy.partitioned, fun v hv => ?_, ?_⟩
  · obtain ⟨hactive, htype⟩ := htidy.partitioned.mem_branchable.mp hv
    have hlt := htidy.partitioned.lt (htidy.partitioned.isActive_iff.mp hactive)
    exact Finset.mem_filter.mpr ⟨Finset.mem_range.mpr hlt, htype⟩
  · unfold ofModel
    exact foldl_lockCons (fun s => s.brancher.intTol) (fun _ _ _ => rfl) _ _

/-- **Before the root is entered**, it can be entered, and there is room for all that follows. -/
theorem Plain.between_root (hs : Plain p sv.settings.intFeasTol s) {selection : NodeSelection}
    (htree : s.tree = SearchTree.new selection) (hsound : Domains.Sound sv.settings.feasTol p.RoundsAt s.domains)
    (hroomy : Domains.Roomy p.splittable (p.spread - 1) s.domains) (hframes : s.domains.frames = [])
    (hoffPath : s.domains.offPath = s.domains)
    (hroot : Returns (onTree (SearchTree.createRoot Scalar.negInf)) s id t) : Between sv p t := by
  obtain ⟨u, hret, -, -, -, hnodes⟩ := SearchTree.createRoot_spec selection (Scalar.negInf : Exact ℚ)
  obtain ⟨u', hret', rfl⟩ := hroot.onPart
  rw [htree] at hret'
  obtain ⟨rfl, rfl⟩ := hret'.unique hret
  have hroot : u.node? 0 = some (Node.root 0 Scalar.negInf) := hnodes 0
  have hpaths : ∀ ns, u.IsPath ns → ns = [0] := fun ns hns => hns.eq_root fun {m x} hx => by
    rw [hnodes] at hx
    split at hx
    · next heq =>
      cases hx
      exact ⟨heq.symm, rfl⟩
    · cases hx
  refine ⟨⟨⟨hs.builtIn, hs.sets, hs.partitioned, hs.branchable, hs.intTol⟩, SearchTree.shallow_root _ hret,
    fun ns hns => by rw [hpaths ns hns]; rfl⟩, fun k hk => ?_, fun hne => absurd hframes hne, fun _ => hoffPath⟩
  obtain rfl : k = 0 := by
    rw [hframes] at hk
    exact Nat.le_zero.mp hk
  refine ⟨hsound, fun ms hms => ?_, fun f fs hf => ?_⟩
  · have hnil : s.domains.path = [] := by
      unfold Domains.path
      rw [hframes]
      rfl
    have hpath := hpaths _ hms
    rw [show (Nat.repeat Domains.leave 0 s.domains).path = s.domains.path from rfl, hnil, List.nil_append] at hpath
    subst hpath
    -- nothing is recorded at the root
    have hdelta : u.delta 0 = [] := SearchTree.delta_eq hroot
    unfold Domains.Replays Domains.descend
    rw [hdelta]
    refine ⟨⟨Domains.calm_nil _, trivial⟩, ?_⟩
    have hpush := hroomy.push 0
    rw [sub_add_cancel] at hpush
    exact hpush
  · cases hframes.symm.trans hf

/-- A model whose variables have bounds where they may be split, with linear constraints alone. -/
structure Ranged (m : Model (Exact ℚ) σ) : Prop where
  assembled : m.Assembled
  builtIn : m.handlers.custom = #[]
  linear : m.handlers.sos1.conss = #[]
  bounds : ∀ v ∈ m.problem.splittable, ∃ a b : ℚ, (m.problem.var v).lower = .fin a ∧ (m.problem.var v).upper = .fin b ∧
    |a| < 10 ^ 8 ∧ |b| < 10 ^ 8

theorem Ranged.between_root (hm : Ranged m) (hpos : 0 < sv.settings.feasTol) (hhalf : sv.settings.feasTol < 0.5)
    (hpricers : sv.plugins.pricers = []) (hsetUp : Returns (setUp sv) (.ofModel sv m w) ⟨⟩ s)
    (hempty : s.domains.hasEmptyDomain = false)
    (hroot : Returns (onTree (SearchTree.createRoot Scalar.negInf)) s id t) :
    Between sv (ofModel sv m w).problem t := by
  obtain ⟨hproblem, -, -, hdomains⟩ := ofModel_parts sv m w
  have htidy := hm.assembled.tidy.foldl_asBinary fun v => List.mem_range.mp
  have hranges := hm.assembled.tidy.foldl_asBinary_ranges fun v => List.mem_range.mp
  have hclerical : (ofModel sv m w).Clerical s := (setUp_clerical _).returns hsetUp
  have hevolves : Evolves sv fun s t : Search (Exact ℚ) σ => Plain (ofModel sv m w).problem sv.settings.intFeasTol s →
    Plain (ofModel sv m w).problem sv.settings.intFeasTol t := evolves_plain hpricers
  have hplain := hevolves.clerical hclerical (ofModel_plain hm.assembled hm.builtIn hm.linear)
  have hsdomains : s.domains = (ofModel sv m w).domains := hclerical.part Search.domains fun _ _ _ _ _ => rfl
  have hstree : s.tree = SearchTree.new sv.settings.nodeSelection :=
    (hclerical.part Search.tree fun _ _ _ _ _ => rfl).trans (ofModel_start sv m w).1
  rw [← hproblem] at htidy hranges
  rw [hdomains, ← hproblem] at hsdomains
  rw [hsdomains] at hempty
  refine hplain.between_root hstree ?_ ?_ ?_ ?_ hroot
  · rw [hsdomains]
    exact htidy.sound hpos hhalf hempty
  · rw [hsdomains]
    refine Problem.roomy_new fun v hv => ?_
    rw [hranges.splittable] at hv
    rw [hranges.lower, hranges.upper]
    exact hm.bounds v hv
  · rw [hsdomains]
    rfl
  · rw [hsdomains]
    rfl

/-! ## Iterations -/

/-- What holds before an iteration. -/
structure Descending (sv : Solver (Exact ℚ) σ) (p : Problem (Exact ℚ)) (s : Search (Exact ℚ) σ) : Prop
    extends Between sv p s where
  accounted : s.Accounted
  begun : s.Begun

/-- **The next node** is taken. -/
theorem Descending.popNext (h : Descending sv p s) (prunable : Exact ℚ → Bool) :
    Ensures (onTree (SearchTree.popNext prunable)) s (fun next t => Between sv p t ∧ ∀ id ∈ next, t.Busy id)
      fun _ t => t.tree.Shallow ⌊p.spread⌋₊ := by
  obtain ⟨next, u, hret, htrims, hthins⟩ := SearchTree.popNext_trims h.accounted.tree prunable
  have hreturns : Returns (onTree (SearchTree.popNext prunable)) s next { s with tree := u } := Returns.onPart_intro hret
  refine .of_returns hreturns ⟨h.toBetween.transfer ?_ htrims hthins rfl, fun id hid => ?_⟩
  · exact ⟨h.plain.builtIn, h.plain.sets, h.plain.partitioned, h.plain.branchable, h.plain.intTol⟩
  · obtain rfl := Option.mem_def.mp hid
    exact h.accounted.popNext h.begun hreturns

omit [Rooted ℚ] in
theorem ensures_releaseNode {K : Type} [Scalar K] {sv : Solver K σ} (node : NodeId) (s : Search K σ) :
    Ensures (releaseNode sv node) s (fun _ t => t.domains = s.domains) fun _ t => t.domains = s.domains := by
  refine .bind (.modifyGet (.forM (I := fun _ (t : Search K σ) => t.domains = s.domains) (fun id _ t ht => ?_) rfl))
  have hsame : ∀ {u}, t.Clerical u → u.domains = s.domains := fun h =>
    (h.part Search.domains fun _ _ _ _ _ => rfl).trans ht
  exact .bind_mono ((removeConsRows_clerical id t).mono (fun _ _ => hsame) fun _ _ => hsame) fun _ _ hu => .modify hu

/-- **Nodes that have left the tree** are forgotten. -/
theorem Between.releaseNodes (hpricers : sv.plugins.pricers = []) (h : Between sv p s) :
    Ensures (releaseNodes sv) s (fun _ t => Between sv p t) fun _ t => t.tree.Shallow ⌊p.spread⌋₊ := by
  have hplain : Evolves sv fun s t : Search (Exact ℚ) σ =>
      Plain p sv.settings.intFeasTol s → Plain p sv.settings.intFeasTol t := evolves_plain hpricers
  have hstep : ∀ (node : NodeId) (s : Search (Exact ℚ) σ), Between sv p s → Ensures (releaseNode sv node) s
      (fun _ t => Between sv p t) fun _ t => t.tree.Shallow ⌊p.spread⌋₊ := by
    intro node s hs
    have hkeep : ∀ {t}, s.Steady t → (Plain p sv.settings.intFeasTol s → Plain p sv.settings.intFeasTol t) →
        t.domains = s.domains → Between sv p t := fun hst hplain hdomains => by
      refine hs.transfer (hplain hs.plain) ?_ ?_ hdomains
      · rw [hst.tree]
        exact SearchTree.trims_of_nodes rfl rfl rfl
      · rw [hst.tree]
        exact fun hn => ⟨_, hn, rfl, rfl⟩
    exact (((evolves_steady.releaseNode' node s).and (hplain.releaseNode' node s)).and (ensures_releaseNode node s)).mono
      (fun _ _ ht => hkeep ht.1.1 ht.1.2 ht.2) fun _ _ ht => (hkeep ht.1.1 ht.1.2 ht.2).shallow
  refine .bind (.modifyGet (Ensures.forM (I := fun _ t => Between sv p t) (fun node _ => hstep node) ?_))
  refine h.transfer ?_ (SearchTree.trims_of_nodes rfl rfl rfl) (fun hn => ⟨_, hn, rfl, rfl⟩) rfl
  exact ⟨h.plain.builtIn, h.plain.sets, h.plain.partitioned, h.plain.branchable, h.plain.intTol⟩

theorem Between.updateDual (h : Between sv p s) (ht : Returns updateDual s ⟨⟩ t) : Between sv p t := by
  obtain rfl := ht.modify
  refine h.transfer ?_ (SearchTree.trims_of_nodes rfl rfl rfl) (fun hn => ⟨_, hn, rfl, rfl⟩) rfl
  exact ⟨h.plain.builtIn, h.plain.sets, h.plain.partitioned, h.plain.branchable, h.plain.intTol⟩

variable (hvalid : sv.settings.validate = .ok ⟨⟩) (hhalf : sv.settings.feasTol < 0.5) (hpricers : sv.plugins.pricers = [])

include hvalid hhalf hpricers

/-- **One iteration.** -/
theorem Descending.step {A : Answering sv} (hA : A.Bounding) (h : Descending sv p s) : Ensures (step sv) s
    (fun answer t => t.tree.Shallow ⌊p.spread⌋₊ ∧ (answer = none → Descending sv p t))
    fun _ t => t.tree.Shallow ⌊p.spread⌋₊ := by
  obtain ⟨-, -, hpos, hint, hintHalf⟩ := Settings.validate_spec hvalid
  have hintHalf := Exact.lt_of_not_le (Exact.ne_nan_of_lt hint).2 (Exact.fin_ne_nan _) hintHalf
  unfold Search.step
  refine .bind (.get ?_)
  split
  · exact .pure ⟨h.shallow, nofun⟩
  refine .bind (.get (.bind_mono (h.popNext _) fun next t ⟨ht, hnext⟩ => ?_))
  cases next with
  | none => exact .bind (.get (.pure ⟨ht.shallow, nofun⟩))
  | some id =>
    have hstats : ∀ stats, Between sv p { t with stats } := fun stats => by
      refine ht.transfer ?_ (SearchTree.trims_of_nodes rfl rfl rfl) (fun hn => ⟨_, hn, rfl, rfl⟩) rfl
      exact ⟨ht.plain.builtIn, ht.plain.sets, ht.plain.partitioned, ht.plain.branchable, ht.plain.intTol⟩
    have hcontract : Contract (stages sv p id) sv id := contract_stages hpos hhalf hpricers hA hint hintHalf
    refine .bind (.modify (.bind_mono (hcontract.processNode ⟨(hnext id rfl).steady ⟨rfl, rfl, .refl _⟩, hstats _⟩)
      fun result u ⟨hunderway, hu⟩ => ?_))
    refine .bind_mono ((hunderway.releaseNodes.and (hu.releaseNodes hpricers)).mono (fun _ _ h => h) fun _ _ => And.right)
      fun _ v ⟨hunderway, hv⟩ => ?_
    split
    · exact .pure ⟨hv.shallow, nofun⟩
    · have hdual : Returns Search.updateDual v ⟨⟩ { v with
          tree := v.tree.lowestBound.2, incumbent := v.incumbent.updateDual v.tree.lowestBound.1 } := rfl
      have hw := hv.updateDual hdual
      obtain ⟨hdone, -⟩ := hunderway.updateDual hdual
      exact .bind (.of_returns hdual (.pure ⟨hw.shallow, fun _ => ⟨hw, hdone.toAccounted, .inl hdone.started⟩⟩))

/-- **All iterations.** -/
theorem Descending.loop {A : Answering sv} (hA : A.Bounding) (h : Descending sv p s) (fuel : Nat) :
    Ensures (loop sv fuel) s (fun _ t => t.tree.Shallow ⌊p.spread⌋₊) fun _ t => t.tree.Shallow ⌊p.spread⌋₊ := by
  induction fuel generalizing s with
  | zero => exact .throw h.shallow
  | succ fuel ih =>
    refine .bind_mono (h.step hvalid hhalf hpricers hA) fun answer t ⟨hshallow, ht⟩ => ?_
    cases answer with
    | some status => exact .pure hshallow
    | none => exact ih (ht rfl)

variable {A : Answering sv} (hA : A.Bounding)

include hA

omit hA in
/-- The first iteration. -/
theorem Ranged.descending_root (hm : Ranged m) (hsetUp : Returns (setUp sv) (.ofModel sv m w) ⟨⟩ s)
    (hempty : s.domains.hasEmptyDomain = false)
    (hroot : Returns (onTree (SearchTree.createRoot Scalar.negInf)) s id t) :
    Descending sv (ofModel sv m w).problem t := by
  obtain ⟨-, -, hpos, -⟩ := Settings.validate_spec hvalid
  obtain ⟨haccounted, -, hbegun⟩ := accounted_root (Scalar.Ordered.le_of_lt hpos) hsetUp hroot
  exact ⟨hm.between_root hpos hhalf hpricers hsetUp hempty hroot, haccounted, hbegun⟩

/-- The start of every iteration. -/
theorem Ranged.descending (hm : Ranged m) (h : Visits sv (.ofModel sv m w) s) :
    Descending sv (ofModel sv m w).problem s :=
  h.invariant (fun _ _ _ => hm.descending_root hvalid hhalf hpricers) fun _ _ hs hstep =>
    ((hs.step hvalid hhalf hpricers hA).returns hstep).2 rfl

end

/-! ## The whole run -/

section

variable {σ : Type} [Rooted ℚ] {sv : Solver (Exact ℚ) σ} {m : Model (Exact ℚ) σ} {w : σ}

/-- The problem that is searched has the widths of that of the model. -/
theorem Ranged.spread_eq (hm : Ranged m) : (ofModel sv m w).problem.spread = m.problem.spread := by
  rw [(ofModel_parts sv m w).1]
  exact (hm.assembled.tidy.foldl_asBinary_ranges fun v => List.mem_range.mp).spread

/-- If no domain is empty, the widths are not negative. -/
theorem Ranged.spread_nonneg (hm : Ranged m) (hpos : 0 < sv.settings.feasTol) (hhalf : sv.settings.feasTol < 0.5)
    (hempty : (ofModel sv m w).domains.hasEmptyDomain = false) : 0 ≤ m.problem.spread := by
  obtain ⟨hproblem, -, -, hdomains⟩ := ofModel_parts sv m w
  have htidy := hm.assembled.tidy.foldl_asBinary fun v => List.mem_range.mp
  have hranges := hm.assembled.tidy.foldl_asBinary_ranges fun v => List.mem_range.mp
  rw [hdomains] at hempty
  have hsound := htidy.sound hpos hhalf hempty
  have hlength := (Problem.roomy_new fun v hv => by
    rw [hranges.splittable] at hv
    rw [hranges.lower, hranges.upper]
    exact hm.bounds v hv).length_le hsound
  rw [sub_add_cancel, hranges.spread] at hlength
  exact (Nat.cast_nonneg _).trans hlength

/-- No node of a tree lies deeper than `W`, no node that it ever had did, and it had no more
than fit into a binary tree of that depth. -/
structure Contained (W : ℚ) (t : SearchTree (Exact ℚ)) : Prop where
  live : ∀ n node, t.node? n = some node → (node.depth : ℚ) ≤ W
  deepest : 0 < t.nextId → (t.maxDepth : ℚ) ≤ W
  finite : t.nextId < 2 ^ (⌊W⌋₊ + 1)

omit [Rooted ℚ] in
theorem contained_of_shallow {W : ℚ} (hW : 0 ≤ W) {t : SearchTree (Exact ℚ)} (ht : t.Shallow ⌊W⌋₊) : Contained W t :=
  ⟨fun _ _ hn => (Nat.le_floor_iff hW).mp (ht.live hn), fun _ => (Nat.le_floor_iff hW).mp ht.deepest,
    Nat.lt_of_le_of_lt (Nat.le_add_right _ _) ht.room⟩

omit [Rooted ℚ] in
/-- A tree without nodes. -/
theorem contained_new (W : ℚ) (selection : NodeSelection) : Contained W (SearchTree.new selection) :=
  ⟨fun n node hn => by simp [SearchTree.node?, SearchTree.new] at hn, fun h => absurd h (Nat.lt_irrefl 0),
    Nat.pow_pos (Nat.succ_pos 1)⟩

/-- **The tree is finite.** No node that a run ever creates lies deeper than the sum of the
widths of the variables that may be split, however nodes are selected, variables chosen and
relaxations answered, and whether the run returns a result or fails. -/
theorem run_contained (hvalid : sv.settings.validate = .ok ⟨⟩) (hhalf : sv.settings.feasTol < 0.5)
    (hpricers : sv.plugins.pricers = []) (hm : Ranged m) (A : Answering sv) (hA : A.Bounding) (w : σ) :
    (∀ s, Visits sv (.ofModel sv m w) s → Contained m.problem.spread s.tree) ∧
      Ensures (run sv) (.ofModel sv m w) (fun _ t => Contained m.problem.spread t.tree)
        fun _ t => Contained m.problem.spread t.tree := by
  obtain ⟨-, -, hpos, -⟩ := Settings.validate_spec hvalid
  have hspread : (ofModel sv m w).problem.spread = m.problem.spread := hm.spread_eq
  have hsetUp : Ensures (setUp sv) (ofModel sv m w) (fun _ t => (ofModel sv m w).Clerical t)
      fun _ t => (ofModel sv m w).Clerical t := setUp_clerical _
  have hkeep : ∀ {t : Search (Exact ℚ) σ}, (ofModel sv m w).Clerical t →
      t.domains = (ofModel sv m w).domains ∧ t.tree = SearchTree.new sv.settings.nodeSelection := fun ht =>
    ⟨ht.part Search.domains fun _ _ _ _ _ => rfl,
      (ht.part Search.tree fun _ _ _ _ _ => rfl).trans (ofModel_start sv m w).1⟩
  refine ⟨fun s hs => ?_, ?_⟩
  · have hnonneg : 0 ≤ m.problem.spread := by
      refine hm.spread_nonneg hpos hhalf (w := w) ?_
      induction hs with
      | root hreturns hempty => exact (hkeep (hsetUp.returns hreturns)).1 ▸ hempty
      | next _ _ ih => exact ih
    exact contained_of_shallow hnonneg (hspread ▸ (hm.descending hvalid hhalf hpricers hA hs).shallow)
  · have hnew : Contained m.problem.spread (SearchTree.new sv.settings.nodeSelection) := contained_new _ _
    refine .bind_mono (hsetUp.self.mono (fun _ _ h => h) fun _ _ h => (hkeep h).2 ▸ hnew) fun _ s ⟨hreturns, hs⟩ => ?_
    obtain ⟨hdomains, htree⟩ := hkeep hs
    refine .bind (.get ?_)
    split
    · exact .bind (.get (.pure (htree ▸ hnew)))
    · next hempty =>
      have hempty : s.domains.hasEmptyDomain = false := by simpa using hempty
      have hnonneg := hm.spread_nonneg hpos hhalf (hdomains ▸ hempty)
      obtain ⟨u, hret, -⟩ := SearchTree.createRoot_spec sv.settings.nodeSelection (Scalar.negInf : Exact ℚ)
      rw [← htree] at hret
      have hroot : Returns (onTree (SearchTree.createRoot Scalar.negInf)) s 0 { s with tree := u } := .onPart_intro hret
      refine .bind (.of_returns hroot ?_)
      have hdescending := hm.descending_root hvalid hhalf hpricers hreturns hempty hroot
      have hloop := hdescending.loop hvalid hhalf hpricers hA sv.steps
      rw [hspread] at hloop
      exact .bind (hloop.mono (fun _ _ ht => .bind (.get (.pure (contained_of_shallow hnonneg ht)))) fun _ _ ht =>
        contained_of_shallow hnonneg ht)

end

/-- An oracle that keeps the bounds that were set, and answers with the middle of them. -/
def middle : Solver (Exact ℚ) (Array (Exact ℚ) × Array (Exact ℚ)) where
  settings := Settings.default
  oracle := { corner.oracle with
    solve := do
      let (lower, upper) ← get
      let x := Array.zipWith (fun a b => (a + b) / 2) lower upper
      if (List.range lower.size).all fun v =>
          decide (lower.getD v 0 ≤ x.getD v 0) && decide (x.getD v 0 ≤ upper.getD v 0) then
        pure { Relaxation.ofStatus .optimal with x }
      else pure (Relaxation.ofStatus .infeasible) }
  steps := 20

/-- What the oracle tells. -/
def middleAnswers : Answering middle where
  Set w lower upper := w = (lower, upper)
  Within lower upper x := ∀ v < lower.size, lower.getD v 0 ≤ x.getD v 0 ∧ x.getD v 0 ≤ upper.getD v 0
  setBounds := cornerAnswers.setBounds
  solve {w lower upper} hw := by
    subst hw
    refine .bind (.get ?_)
    dsimp only
    split
    · next hbetween =>
      refine .pure ⟨rfl, fun _ v hv => ?_⟩
      have hv := List.all_eq_true.mp hbetween v (List.mem_range.mpr hv)
      rw [Bool.and_eq_true, decide_eq_true_eq, decide_eq_true_eq] at hv
      exact hv
    · exact .pure ⟨rfl, nofun⟩
  clearBasis hw := hw

/-- What the model of the two variables holds. -/
theorem forced_parts : forced.handlers.sos1.conss = #[] ∧ forced.problem.splittable = {0, 1} ∧
    (forced.problem.var 0).lower = .fin 0 ∧ (forced.problem.var 0).upper = .fin 2 ∧
    (forced.problem.var 1).lower = .fin 1 ∧ (forced.problem.var 1).upper = .fin 1 := by
  have hsorted : Row.canonical [((0 : VarId), (1 : Exact ℚ)), (1, 1)] = [(0, 1), (1, 1)] := by cbv
  unfold forced Model.addLinear Row.of
  rw [hsorted]
  decide +kernel

theorem forced_ranged : Ranged forced := by
  have hbuilt : forced.Built := (((Model.Built.new _).addVar ..).addVar ..).addLinear ..
  obtain ⟨hsets, hsplittable, hlower, hupper, hlower', hupper'⟩ := forced_parts
  refine ⟨(((Model.Assembled.new _).addVar ..).addVar ..).addLinear .., hbuilt.arranged.builtIn, hsets, fun v hv => ?_⟩
  rw [hsplittable, Finset.mem_insert, Finset.mem_singleton] at hv
  rcases hv with rfl | rfl
  · exact ⟨0, 2, hlower, hupper, by norm_num, by norm_num⟩
  · exact ⟨1, 1, hlower', hupper', by norm_num, by norm_num⟩

theorem run_contained_forced : middle.settings.validate = .ok ⟨⟩ ∧ middle.settings.feasTol < 0.5 ∧
    middle.plugins.pricers = [] ∧ Ranged forced ∧ middleAnswers.Bounding ∧ forced.problem.spread = 2 ∧
    (∀ s, Visits middle (.ofModel middle forced (#[], #[])) s → Contained forced.problem.spread s.tree) ∧
    Ensures (run middle) (.ofModel middle forced (#[], #[])) (fun _ t => Contained forced.problem.spread t.tree)
      fun _ t => Contained forced.problem.spread t.tree := by
  have hvalid : middle.settings.validate = .ok ⟨⟩ := by decide +kernel
  have hhalf : middle.settings.feasTol < 0.5 := by decide +kernel
  have hbounding : middleAnswers.Bounding := fun _ _ _ h => h
  have hspread : forced.problem.spread = 2 := by
    obtain ⟨-, hsplittable, hlower, hupper, hlower', hupper'⟩ := forced_parts
    unfold Problem.spread
    rw [hsplittable, Finset.sum_pair (by decide), hlower, hupper, hlower', hupper']
    norm_num [Exact.toField]
  exact ⟨hvalid, hhalf, rfl, forced_ranged, hbounding, hspread,
    run_contained hvalid hhalf rfl forced_ranged middleAnswers hbounding _⟩

end Search

end BranchAndCut

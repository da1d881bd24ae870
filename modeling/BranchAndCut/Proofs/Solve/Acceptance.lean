import BranchAndCut.Proofs.Constraint.Requests
import BranchAndCut.Proofs.Model.Assembly
import BranchAndCut.Proofs.Solve.Probed

/-! # Accepted solutions are feasible

A run offers two kinds of points: solutions of the relaxation, which have been checked for
the variables that are still in their groups and for the active constraints, and points of
heuristics, which have been checked for all variables and for the constraints of the whole
tree. Either way all integral variables and all constraints of the whole tree are
satisfied: what leaves its group is fixed to a whole number, and what is valid everywhere
is always active. -/

namespace BranchAndCut

variable {K σ : Type} [Scalar K]

theorem VarType.isIntegral_of_isBranchable {t : VarType} (h : t.isBranchable = true) : t.isIntegral = true := by
  cases t with
  | continuous => cases h
  | _ => rfl

namespace Problem

variable {p q : Problem K} {v : VarId}

theorem Tidy.asBinary [Scalar.Rounds K] (h : p.Tidy) (hv : v < p.numVars) :
    (Search.asBinary p v).Tidy ∧ (Search.asBinary p v).numVars = p.numVars := by
  unfold Search.asBinary
  dsimp only
  split
  · split
    · next hchange => exact h.changeType hv hchange
    · exact ⟨h, rfl⟩
  · exact ⟨h, rfl⟩

/-- The variables that the solve takes for binary ones keep all in order. -/
theorem Tidy.foldl_asBinary [Scalar.Rounds K] (h : p.Tidy) {vars : List VarId} (hvars : ∀ v ∈ vars, v < p.numVars) :
    (vars.foldl Search.asBinary p).Tidy := by
  induction vars generalizing p with
  | nil => exact h
  | cons v vars ih =>
    obtain ⟨htidy, hsize⟩ := h.asBinary (hvars v List.mem_cons_self)
    exact ih htidy fun w hw => hsize ▸ hvars w (List.mem_cons_of_mem _ hw)

omit [Scalar K] in
theorem Extends.numVars (h : p.Extends q) : p.numVars ≤ q.numVars := h.vars.length_le

theorem Extends.var (h : p.Extends q) (hv : v < p.numVars) : q.var v = p.var v := by
  obtain ⟨rest, hvars⟩ := h.vars
  have hlt : v < p.vars.toList.length := hv
  unfold Problem.var
  rw [Array.getD_eq_getD_getElem?, Array.getD_eq_getD_getElem?, ← Array.getElem?_toList, ← Array.getElem?_toList,
    ← hvars, List.getElem?_append_left hlt]

/-- The variables whose bounds are rounded. -/
def RoundsAt (p : Problem K) (v : VarId) : Prop := v < p.numVars ∧ p.isIntegral v = true

/-- The domains of the variables, none of them empty, have whole bounds where they have to be. -/
theorem Tidy.levels [Scalar.Ordered K] [Scalar.Rounds K] {tol : K} (h : p.Tidy) (hpos : 0 < tol) (hhalf : tol < 0.5)
    (hempty : (Domains.new (p.vars.map (·.lower)) (p.vars.map (·.upper)) (p.vars.map (·.type.isIntegral))
      tol).hasEmptyDomain = false) :
    Domains.Levels (Domains.Rounded tol p.RoundsAt fun _ => False) (Domains.new (p.vars.map (·.lower))
      (p.vars.map (·.upper)) (p.vars.map (·.type.isIntegral)) tol) := by
  have hread : ∀ {α : Type} (f : Variable K → α) (z : α) v, v < p.numVars → (p.vars.map f).getD v z = f (p.var v) :=
    fun f z v hv => (getD_map ..).trans (if_pos hv)
  refine Domains.levels_new hpos hhalf (fun v hv => ?_) (fun v hv => ?_) (fun v hv => ?_) hempty
  · rw [Array.size_map, Array.size_map, hread _ _ v hv.1]
    exact ⟨hv.1, hv.1, hv.2⟩
  · rw [hread _ _ v hv.1, hread _ _ v hv.1]
    exact h.defined v hv.1
  · rw [hread _ _ v hv.1, hread _ _ v hv.1]
    exact h.whole v hv.1 hv.2

end Problem

namespace Search

variable {sv : Solver K σ} {s t : Search K σ} {p : Problem K} {tol : K} {custom : Array (CustomHandler K σ)}

/-- What the acceptance of solutions rests on, for a search that has started with a problem:
the registry follows its path, bounds of the variables there were are whole, and what the
search may branch on is in its group or has been fixed. -/
structure Vouched (p : Problem K) (tol : K) (custom : Array (CustomHandler K σ)) (s : Search K σ) : Prop where
  registry : s.registry.Wf
  families : s.handlers.custom = custom
  grows : p.Extends s.problem
  partitioned : s.problem.Partitioned
  fixed : ∃ P : VarId → Prop, Domains.Levels (Domains.Rounded tol p.RoundsAt P) s.domains ∧
    ∀ v < s.problem.numVars, (s.problem.var v).type.isBranchable = true →
      s.problem.isActive v = true ∨ p.RoundsAt v ∧ P v

variable [Scalar.Ordered K] [Scalar.Rounds K]

/-- All operations keep what the acceptance of solutions rests on. -/
theorem survives_vouched (hpos : 0 < tol) (hhalf : tol < 0.5) (hrequests : ∀ handler ∈ custom, handler.Requests) :
    Survives sv (Vouched p tol custom) fun q => q.numVars = p.numVars where
  evolves := {
    clerical := fun {s t} h hs => by
      have hregistry : t.registry = s.registry := h.part Search.registry fun _ _ _ _ _ => rfl
      have hhandlers : t.handlers = s.handlers := h.part Search.handlers fun _ _ _ _ _ => rfl
      have hproblem : t.problem = s.problem := h.part Search.problem fun _ _ _ _ _ => rfl
      have hdomains : t.domains = s.domains := h.part Search.domains fun _ _ _ _ _ => rfl
      refine ⟨hregistry ▸ hs.registry, hhandlers ▸ hs.families, hproblem ▸ hs.grows, hproblem ▸ hs.partitioned, ?_⟩
      rw [hproblem, hdomains]
      exact hs.fixed
    trans := fun h h' hs => h' (h hs)
    restore := fun _ hs => by
      obtain ⟨P, hlevels, hgrouped⟩ := hs.fixed
      exact ⟨hs.registry, hs.families, hs.grows, hs.partitioned, P,
        Domains.Levels.restore (Domains.kept_rounded hpos hhalf) hlevels _ _, hgrouped⟩
    switchPath := fun s path hs =>
      ⟨(Registry.switchPath_spec hs.registry path).1.wf, hs.families, hs.grows, hs.partitioned, hs.fixed⟩
    propagate := fun s => by
      by_cases hs : s.handlers.custom = custom
      · have hmoves := Propagator.run_moves (g := s.implications) (hs ▸ hrequests) s.propagator s.registry sv.steps
          s.domains s.world
        have hkeep : ∀ e : Domains K, s.domains.Moves e → ∀ w, Vouched p tol custom s →
            Vouched p tol custom { s with domains := e, world := w } := fun e he w hs => by
          obtain ⟨P, hlevels, hgrouped⟩ := hs.fixed
          exact ⟨hs.registry, hs.families, hs.grows, hs.partitioned, P,
            Domains.Levels.moves (Domains.kept_rounded hpos hhalf) hlevels he, hgrouped⟩
        exact hmoves.mono (fun _ t ht => hkeep t.1 ht t.2) fun _ t ht => hkeep t.1 ht t.2
      · unfold Ensures
        split <;> exact fun h => absurd h.families hs
    updateActivity := fun _ _ hs => ⟨hs.registry, hs.families, hs.grows, hs.partitioned, hs.fixed⟩
    separateInactive := fun _ _ _ hs => ⟨hs.registry, hs.families, hs.grows, hs.partitioned, hs.fixed⟩
    addCut := fun _ _ hs => ⟨hs.registry, hs.families, hs.grows, hs.partitioned, hs.fixed⟩
    addRow := fun _ _ _ hs => ⟨hs.registry, hs.families, hs.grows, hs.partitioned, hs.fixed⟩
    register := fun {s index node id registry} hadd hs => by
      refine ⟨?_, hs.families, hs.grows, hs.partitioned, hs.fixed⟩
      by_cases hfamily : 0 < s.registry.active.size
      · obtain ⟨grown, hgrown, hspec⟩ := Registry.add_spec (K := K) hs.registry hfamily index (.below node)
        rw [hadd] at hgrown
        cases hgrown
        exact hspec.wf
      · unfold Registry.add at hadd
        rw [if_pos (Nat.not_lt.mp hfamily)] at hadd
        cases hadd
    lockCons := fun _ _ _ hs => ⟨hs.registry, hs.families, hs.grows, hs.partitioned, hs.fixed⟩
    addVar := fun _ {s name type lower upper obj v problem} hadd hs => by
      obtain ⟨P, hlevels, hgrouped⟩ := hs.fixed
      refine ⟨hs.registry, hs.families, hs.grows.trans (Problem.Extends.addVar hadd),
        (hs.partitioned.addVar hadd).1, P, Domains.levels_addVariable hlevels _ _ _, fun w hw htype => ?_⟩
      rw [hs.partitioned.isActive_addVar hadd]
      by_cases hnew : w = s.problem.numVars
      · exact .inl (.inr hnew)
      · rw [Problem.addVar_vars hadd, if_neg hnew] at htype
        rw [Problem.addVar_numVars hadd, Nat.lt_succ_iff_lt_or_eq, or_iff_left hnew] at hw
        exact (hgrouped w hw htype).imp_left .inl
    addCoefficient := fun _ s h c v a => by
      have hsame := Handlers.addCoefficient_custom s.handlers s.world h c v a
      exact hsame.mono (fun _ _ ht hs => ⟨hs.registry, ht.trans hs.families, hs.grows, hs.partitioned, hs.fixed⟩)
        fun _ _ ht hs => ⟨hs.registry, ht.trans hs.families, hs.grows, hs.partitioned, hs.fixed⟩
    releaseNode := fun s node hs =>
      ⟨(Registry.releaseNode_spec hs.registry node).1, hs.families, hs.grows, hs.partitioned, hs.fixed⟩
    delete := fun _ _ _ hs => ⟨hs.registry, (Handlers.delete_custom ..).trans hs.families, hs.grows, hs.partitioned, hs.fixed⟩ }
  settle := fun _ _ hs => ⟨hs.registry, hs.families, hs.grows, hs.partitioned, hs.fixed⟩
  counts := fun _ hs => ⟨hs.registry, hs.families, hs.grows, hs.partitioned, hs.fixed⟩
  compact := fun {s} hs hstart => by
    obtain ⟨P, hlevels, hgrouped⟩ := hs.fixed
    have hgrows := Problem.Extends.compactAll s.problem (s.problem.order.filter s.domains.isGloballyFixed)
    obtain ⟨hpartitioned, hmem⟩ :=
      hs.partitioned.compactAll (s.problem.order.filter s.domains.isGloballyFixed)
    refine ⟨hs.registry, hs.families, hs.grows.trans hgrows, hpartitioned, _, Domains.levels_pin hlevels,
      fun v hv htype => ?_⟩
    have hsize : v < s.problem.numVars := by
      unfold Problem.numVars at hv
      rwa [Problem.compactAll_vars] at hv
    dsimp only at htype ⊢
    rw [hgrows.var hsize] at htype
    rcases hgrouped v hsize htype with hactive | ⟨hrounds, hP⟩
    · by_cases hfixed : s.domains.isGloballyFixed v = true
      · have hlt : v < p.numVars := hstart ▸ hsize
        rw [hs.grows.var hlt] at htype
        exact .inr ⟨⟨hlt, VarType.isIntegral_of_isBranchable htype⟩, .inr hfixed⟩
      · have hmember := hs.partitioned.isActive_iff.mp hactive
        have hkept := (hmem v _).mpr ⟨hmember, fun hin => hfixed (List.of_mem_filter hin)⟩
        exact .inl (hpartitioned.groups.isSome_position?.mpr ⟨_, hkept⟩)
    · exact .inr ⟨hrounds, .inl hP⟩

/-! ## The start -/

omit [Scalar.Ordered K] [Scalar.Rounds K] in
/-- What a search starts with, apart from locks and watchers. -/
theorem ofModel_parts (sv : Solver K σ) (m : Model K σ) (w : σ) :
    let problem := (List.range m.problem.numVars).foldl asBinary m.problem
    (ofModel sv m w).problem = problem ∧ (ofModel sv m w).registry = m.registry ∧
      (ofModel sv m w).handlers = m.handlers ∧
      (ofModel sv m w).domains = Domains.new (problem.vars.map (·.lower)) (problem.vars.map (·.upper))
        (problem.vars.map (·.type.isIntegral)) sv.settings.feasTol := by
  unfold ofModel
  exact ⟨foldl_lockCons Search.problem (fun _ _ _ => rfl) _ _, foldl_lockCons Search.registry (fun _ _ _ => rfl) _ _,
    foldl_lockCons Search.handlers (fun _ _ _ => rfl) _ _, foldl_lockCons Search.domains (fun _ _ _ => rfl) _ _⟩

theorem ofModel_vouched (hpos : 0 < sv.settings.feasTol) (hhalf : sv.settings.feasTol < 0.5) {m : Model K σ}
    (hm : m.Assembled) (w : σ) (hempty : (ofModel sv m w).domains.hasEmptyDomain = false) :
    Vouched (ofModel sv m w).problem sv.settings.feasTol m.handlers.custom (ofModel sv m w) := by
  obtain ⟨hproblem, hregistry, hhandlers, hdomains⟩ := ofModel_parts sv m w
  have htidy : ((List.range m.problem.numVars).foldl asBinary m.problem).Tidy :=
    hm.tidy.foldl_asBinary fun v => List.mem_range.mp
  rw [← hproblem] at htidy hdomains
  rw [hdomains] at hempty
  refine ⟨hregistry ▸ hm.filed.wf, congrArg Handlers.custom hhandlers, .refl _, htidy.partitioned, fun _ => False, ?_,
    fun v hv _ => .inl (htidy.active v hv)⟩
  rw [hdomains]
  exact htidy.levels hpos hhalf hempty

/-! ## What has passed the checks -/

/-- A point that satisfies the problem as far as the built-in families tell, and whose value
is that of the incumbent once it is accepted. -/
structure Genuine (settings : Settings K) (s : Search K σ) (x : Array K) : Prop where
  integral : ∀ v < s.problem.numVars, (s.problem.var v).type.isBranchable = true →
    Scalar.abs (x.getD v 0 - Scalar.round (x.getD v 0)) ≤ settings.intFeasTol
  satisfied : ∀ id < s.registry.size, (s.registry.record id).scope = .everywhere → s.registry.isDeleted id = false →
    s.registry.handler id < 2 →
    s.handlers.check s.world (s.registry.handler id) [s.registry.index id] x settings.feasTol = []
  accepted : ∀ t, Returns (report x) s true t → t.incumbent.solution = some x ∧ t.incumbent.primal = s.problem.value x

omit [Scalar.Ordered K] [Scalar.Rounds K] in
/-- An accepted point is the incumbent. -/
theorem report_accepts {x : Array K} (h : Returns (report x) s true t) :
    t.incumbent.solution = some x ∧ t.incumbent.primal = s.problem.value x := by
  unfold report at h
  obtain ⟨_, _, hget, h⟩ := h.bind
  obtain ⟨rfl, rfl⟩ := hget.get
  split at h
  · cases h.pure.1
  · next incumbent hoffer =>
    obtain ⟨_, u, hset, h⟩ := h.bind
    obtain rfl := hset.set
    obtain ⟨_, v, hprune, h⟩ := h.bind
    obtain ⟨tree, -, rfl⟩ := hprune.onPart
    obtain ⟨-, rfl⟩ := h.pure
    unfold Incumbent.offer at hoffer
    split at hoffer
    · cases hoffer
    · cases hoffer
      exact ⟨rfl, rfl⟩

omit [Scalar.Ordered K] [Scalar.Rounds K] in
/-- The built-in families check each constraint on its own. -/
theorem check_of_mem {hs : Handlers K σ} {w : σ} {h : HandlerId} (hbuiltIn : h < 2) {conss : List Nat} {c : Nat}
    (hc : c ∈ conss) {x : Array K} (hcheck : (hs.check w h conss x tol).isEmpty = true) :
    hs.check w h [c] x tol = [] := by
  have hfilter : ∀ {p : Nat → Bool}, (conss.filter p).isEmpty = true → [c].filter p = [] := fun hempty =>
    List.filter_eq_nil_iff.mpr fun d hd => by
      rw [List.mem_singleton.mp hd]
      exact List.filter_eq_nil_iff.mp (List.isEmpty_iff.mp hempty) c hc
  match h, hbuiltIn with
  | 0, _ => exact hfilter hcheck
  | 1, _ => exact hfilter hcheck

omit [Scalar.Ordered K] [Scalar.Rounds K] in
/-- **Constraints of the whole tree are always checked.** -/
theorem Vouched.satisfied (hs : Vouched p tol custom s) {x : Array K} {feasTol : K} {globalOnly : Bool}
    (hchecked : s.satisfies feasTol x globalOnly = true) {id : ConsId} (hid : id < s.registry.size)
    (hscope : (s.registry.record id).scope = .everywhere) (hdeleted : s.registry.isDeleted id = false)
    (hbuiltIn : s.registry.handler id < 2) :
    s.handlers.check s.world (s.registry.handler id) [s.registry.index id] x feasTol = [] := by
  have hactive : id ∈ s.registry.activeOf (s.registry.handler id) :=
    hs.registry.mirrors.mem_activeOf.mpr ⟨(hs.registry.follows id hid).mpr ⟨hdeleted, .inl hscope⟩, rfl⟩
  have hindex : s.registry.index id ∈ s.indicesToCheck (s.registry.handler id) globalOnly := by
    unfold indicesToCheck
    split
    · refine List.mem_map_of_mem (List.mem_filter.mpr ⟨Array.mem_toList_iff.mpr hactive, ?_⟩)
      exact decide_eq_true hscope
    · unfold Registry.activeIndices
      rw [hs.registry.mirrors.indices, Array.toList_map]
      exact List.mem_map_of_mem (Array.mem_toList_iff.mpr hactive)
  refine check_of_mem hbuiltIn hindex (List.all_eq_true.mp hchecked _ (List.mem_range.mpr ?_))
  exact Nat.lt_of_lt_of_le hbuiltIn (Nat.le_add_left 2 _)

/-- The optimal solutions of the oracle lie within the bounds that were set last. -/
def Answering.Bounding (A : Answering sv) : Prop := ∀ lower upper x, A.Within lower upper x →
  ∀ v < lower.size, lower.getD v 0 ≤ x.getD v 0 ∧ x.getD v 0 ≤ upper.getD v 0

theorem Vouched.genuine {A : Answering sv} (hA : A.Bounding) (hpos : 0 < sv.settings.intFeasTol) (hhalf : tol < 0.5)
    (hs : Vouched p tol custom s) {x : Array K} (hx : Proposed sv s x ∨ Solved A s x) : Genuine sv.settings s x := by
  rcases hx with hx | hx
  · refine ⟨fun v hv htype => ?_, fun id => hs.satisfied hx.satisfied, fun t => report_accepts⟩
    have hsize : v < x.size := hx.size ▸ hv
    have hmem : (x.getD v 0, v) ∈ x.toList.zipIdx := by
      rw [List.mem_zipIdx_iff_getElem?]
      simp [hsize]
    have hfits : valueFits sv.settings s v (x.getD v 0) = true := List.all_eq_true.mp hx.values _ hmem
    unfold valueFits at hfits
    have hintegral : s.problem.isIntegral v = true := VarType.isIntegral_of_isBranchable htype
    rw [hintegral] at hfits
    simpa using (Bool.and_eq_true_iff.mp hfits).2
  · refine ⟨fun v hv htype => ?_, fun id => hs.satisfied hx.satisfied, fun t => report_accepts⟩
    obtain ⟨P, hlevels, hgrouped⟩ := hs.fixed
    rcases hgrouped v hv htype with hactive | ⟨hrounds, hP⟩
    · refine of_decide_eq_true (List.all_eq_true.mp hx.integral v ?_)
      exact hs.partitioned.mem_branchable.mpr ⟨hactive, htype⟩
    · obtain ⟨hlower, hupper⟩ := hA _ _ _ hx.within v (hlevels.top.held v hrounds).2.2.1
      exact hlevels.top.near hhalf hrounds hP hlower hupper hpos

/-! ## The run -/

omit [Scalar.Rounds K] [Scalar.Ordered K] in
/-- A run with an empty domain offers nothing. -/
theorem offering_of_empty {m : Model K σ} {w : σ} (hempty : (ofModel sv m w).domains.hasEmptyDomain = true)
    {P : Search K σ → Array K → Prop} : WheneverOffering sv (.ofModel sv m w) P := by
  intro offer _
  suffices h : Agree (runWith { report := offer, separate := Focus.separate sv } sv) (run sv) (.ofModel sv m w)
      fun _ _ => True from h.1
  have hsetUp : Ensures (setUp sv) (.ofModel sv m w) (fun _ t => t.domains = (ofModel sv m w).domains)
      fun _ _ => True :=
    (setUp_clerical _).mono (fun _ _ h => h.part Search.domains fun _ _ _ _ _ => rfl) fun _ _ _ => trivial
  refine .after hsetUp fun _ s hs => .get ?_
  rw [hs, if_pos hempty, if_pos hempty]
  exact .refl (.bind (.get (.pure trivial)))

/-- **Accepted solutions are feasible.** Whenever a run offers a point, all variables that
have to be integral are so within the tolerance, also those that have left their groups, all
constraints of the whole tree pass their checks, and the point is the incumbent once it is
accepted. -/
theorem run_offers_genuine (hvalid : sv.settings.validate = .ok ⟨⟩) (hhalf : sv.settings.feasTol < 0.5)
    {m : Model K σ} (hm : m.Assembled) (hrequests : ∀ handler ∈ m.handlers.custom, handler.Requests)
    (A : Answering sv) (hA : A.Bounding) (w : σ) :
    WheneverOffering sv (.ofModel sv m w) fun s x => Genuine sv.settings s x := by
  obtain ⟨-, -, hpos, hint, -⟩ := Settings.validate_spec hvalid
  cases hempty : (ofModel sv m w).domains.hasEmptyDomain with
  | true => exact offering_of_empty hempty
  | false =>
    have hsurvives : Survives sv (Vouched (ofModel sv m w).problem sv.settings.feasTol m.handlers.custom)
        fun q => q.numVars = (ofModel sv m w).problem.numVars := survives_vouched hpos hhalf hrequests
    have hoffers := hsurvives.offering A (Scalar.Ordered.le_of_lt hpos) (ofModel_vouched hpos hhalf hm w hempty) rfl
    exact hoffers.mono fun s x hx => hx.1.genuine hA hint hhalf hx.2

/-- An oracle that keeps the bounds that were set, and answers with the lower ones. -/
def corner : Solver (Exact ℚ) (Array (Exact ℚ) × Array (Exact ℚ)) where
  settings := Settings.default
  oracle := {
    addColumns _ := pure ()
    addRows _ := pure ()
    removeRows _ := pure ()
    row? _ _ := none
    setBounds lower upper := set (lower, upper)
    solve := do
      let (lower, upper) ← get
      if (List.range lower.size).all fun v => decide (lower.getD v 0 ≤ upper.getD v 0) then
        pure { Relaxation.ofStatus .optimal with x := lower }
      else pure (Relaxation.ofStatus .infeasible)
    saveBasis _ := none
    restoreBasis _ w := w
    clearBasis w := w
    tableauRows _ _ := .ok [] }
  steps := 20

/-- What the oracle tells. -/
def cornerAnswers : Answering corner where
  Set w lower upper := w = (lower, upper)
  Within lower upper x := ∀ v < lower.size, lower.getD v 0 ≤ x.getD v 0 ∧ x.getD v 0 ≤ upper.getD v 0
  setBounds _ _ _ := .set rfl
  solve {w lower upper} hw := by
    subst hw
    refine .bind (.get ?_)
    dsimp only
    split
    · next hordered =>
      refine .pure ⟨rfl, fun _ v hv => ?_⟩
      have hle : lower.getD v 0 ≤ upper.getD v 0 :=
        of_decide_eq_true (List.all_eq_true.mp hordered v (List.mem_range.mpr hv))
      exact ⟨Exact.le_refl' (Exact.ne_nan_of_le hle).1, hle⟩
    · exact .pure ⟨rfl, nofun⟩
  clearBasis hw := hw

/-- A variable that a row forces up, and one that is fixed from the start. -/
def forced : Model (Exact ℚ) (Array (Exact ℚ) × Array (Exact ℚ)) :=
  Model.after (Model.addLinear "r" [(0, 1), (1, 1)] 2 Scalar.inf .plain)
    (Model.after (Model.addVar "y" .binary 1 1 0) (Model.after (Model.addVar "x" .integer 0 2 1) (.new "forced")))

theorem run_offers_genuine_forced : corner.settings.validate = .ok ⟨⟩ ∧ corner.settings.feasTol < 0.5 ∧
    forced.Assembled ∧ (∀ handler ∈ forced.handlers.custom, handler.Requests) ∧ cornerAnswers.Bounding ∧
    (match run corner (.ofModel corner forced (#[], #[])) with
      | .ok out _ => decide (out.status = .optimal ∧ out.x = some #[1, 1])
      | .error _ _ => false) = true ∧
    WheneverOffering corner (.ofModel corner forced (#[], #[])) fun s x => Genuine corner.settings s x := by
  have hassembled : forced.Assembled := (((Model.Assembled.new _).addVar ..).addVar ..).addLinear ..
  have hbuilt : forced.Built := (((Model.Built.new _).addVar ..).addVar ..).addLinear ..
  have hvalid : corner.settings.validate = .ok ⟨⟩ := by decide +kernel
  have hhalf : corner.settings.feasTol < 0.5 := by decide +kernel
  have hrequests : ∀ handler ∈ forced.handlers.custom, handler.Requests := by
    rw [hbuilt.arranged.builtIn]
    exact fun _ h => absurd h (Array.not_mem_empty _)
  have hbounding : cornerAnswers.Bounding := fun _ _ _ h => h
  refine ⟨hvalid, hhalf, hassembled, hrequests, hbounding, ?_,
    run_offers_genuine hvalid hhalf hassembled hrequests cornerAnswers hbounding _⟩
  have hsorted : Row.canonical [((0 : VarId), (1 : Exact ℚ)), (1, 1)] = [(0, 1), (1, 1)] := by cbv
  unfold Search.ofModel Propagator.new
  dsimp only
  rw [Handlers.sorted_builtIn hbuilt.arranged.builtIn]
  unfold forced Model.addLinear Row.of
  rw [hsorted]
  decide +kernel

end Search

end BranchAndCut

import BranchAndCut.Proofs.Retention.Retained

/-! # A point in the rounds of a node

Through the rounds the search retains the point. If they end with a verdict, the point does
not follow the node; if they end at an optimal solution of the relaxation, its value is a
bound for the points that do. -/

namespace BranchAndCut.Focus

variable [Rooted ℚ] {σ : Type} {sv : Solver (Exact ℚ) σ} {m : Model (Exact ℚ) σ} {x : Point} {id : NodeId}
  {tree : SearchTree (Exact ℚ)} {bound : Exact ℚ} {f g : Focus (Exact ℚ) σ}

section

variable (H : Honest sv m) (hpricers : sv.plugins.pricers = []) (hx : m.Feasible x)

/-- What holds through the rounds of a node with some bound, in a tree that stays as it is. -/
structure Inspects (tree : SearchTree (Exact ℚ)) (id : NodeId) (bound : Exact ℚ) (f : Focus (Exact ℚ) σ) : Prop where
  focused : Focused (H.footing hpricers hx (tree.Follows x id)) f
  retains : f.search.Retains x (m.value x) (· = id)
  busy : f.search.Busy id
  sameTree : f.search.tree = tree
  leads : tree.Leads f.search.domains.path id
  path : f.search.registry.path.map Prod.fst = f.search.domains.path.reverse
  node : f.node = id
  depth : f.depth = f.search.domains.path.length - 1
  nodeBound : f.nodeBound = bound
  pricerBound : f.pricerBound = Scalar.negInf

/-- The last solution of the relaxation, whose value is a bound for the point if it follows
the node. -/
def Bounds (x : Point) (tree : SearchTree (Exact ℚ)) (id : NodeId) (f : Focus (Exact ℚ) σ) : Prop :=
  ∃ lp y, f.lp = some lp ∧ lp.status = .optimal ∧ lp.x = y.vector ∧ lp.objective = f.search.valueAt y ∧
    (tree.Follows x id → f.search.valueAt y ≤ f.search.valueAt x)

/-- The solution at hand is the answer for what the relaxation holds, within the bounds of the
domains. -/
def Answered (H : Honest sv m) (x : Point) (f : Focus (Exact ℚ) σ) : Prop :=
  ∀ lp, f.lp = some lp → ∃ c, (H.Holds f.search.world c ∧ c.MeetsCuts x) ∧ f.search.Tracks c [] ∧
    H.Solved f.search.world c f.search.domains.lower f.search.domains.upper lp

/-- What an outcome tells of the point. -/
def Tells (x : Point) (tree : SearchTree (Exact ℚ)) (id : NodeId) (outcome : RoundOutcome) (f : Focus (Exact ℚ) σ) :
    Prop :=
  match outcome with
  | .infeasible => ¬ tree.Follows x id
  | .cutoff => ¬ tree.Follows x id
  | .boundExceeded => Bounds x tree id f ∧ f.search.incumbent.isPrunable f.bound = true
  | .feasible => Bounds x tree id f
  | .fractional => Bounds x tree id f
  | _ => True

variable {H hpricers hx}

theorem Inspects.here (h : Inspects H hpricers hx tree id bound f) (hfollows : tree.Follows x id) : f.search.Here x :=
  Search.here_of_follows rfl (h.sameTree ▸ h.leads) (h.sameTree ▸ hfollows)

theorem Inspects.follows_of_here (h : Inspects H hpricers hx tree id bound f) (hhere : f.search.Here x) :
    tree.Follows x id :=
  h.sameTree ▸ Search.follows_of_here rfl (h.sameTree ▸ h.leads) hhere

theorem Inspects.registry (h : Inspects H hpricers hx tree id bound f) : f.search.registry.Wf :=
  h.focused.synced.filed.registry

theorem Inspects.builtIn (h : Inspects H hpricers hx tree id bound f) : f.search.handlers.custom = #[] :=
  h.focused.synced.carries.builtIn

/-- Every point belongs to the root. -/
theorem Inspects.follows_root (h : Inspects H hpricers hx tree id bound f) (hdepth : f.depth = 0) : tree.Follows x id := by
  have hshort : f.search.domains.path.length ≤ 1 := by
    have := h.depth
    omega
  obtain ⟨-, node, hn, hparent⟩ := Search.leads_short h.leads hshort
  exact (h.sameTree ▸ h.retains.anchored).follows hn hparent

/-- The relaxation, the cuts at hand and what was learned may change. -/
theorem Inspects.follows (h : Inspects H hpricers hx tree id bound f)
    (hfocused : Focused (H.footing hpricers hx (tree.Follows x id)) g) (hfollows : f.Follows g)
    (hpricer : g.pricerBound = Scalar.negInf) : Inspects H hpricers hx tree id bound g := by
  have hpart : ∀ {α : Type} (part : Search (Exact ℚ) σ → α), (∀ s world lpRows staleCutRows stats pool brancher,
      part { s with world, lpRows, staleCutRows, stats, pool, brancher } = part s) → part g.search = part f.search :=
    fun part hpart => (congrArg (fun g => part g.search) hfollows).trans (hpart ..)
  have hdomains : g.search.domains = f.search.domains := hpart Search.domains fun _ _ _ _ _ _ _ => rfl
  have htree : g.search.tree = f.search.tree := hpart Search.tree fun _ _ _ _ _ _ _ => rfl
  have hincumbent : g.search.incumbent = f.search.incumbent := hpart Search.incumbent fun _ _ _ _ _ _ _ => rfl
  have hproblem : g.search.problem = f.search.problem := hpart Search.problem fun _ _ _ _ _ _ _ => rfl
  have hregistry : g.search.registry = f.search.registry := hpart Search.registry fun _ _ _ _ _ _ _ => rfl
  have hhandlers : g.search.handlers = f.search.handlers := hpart Search.handlers fun _ _ _ _ _ _ _ => rfl
  have himplications : g.search.implications = f.search.implications := hpart Search.implications fun _ _ _ _ _ _ _ => rfl
  refine ⟨hfocused, h.retains.congr hproblem hhandlers hregistry himplications hdomains htree hincumbent
    (hpart Search.gomory fun _ _ _ _ _ _ _ => rfl), ?_,
    htree.trans h.sameTree, hdomains ▸ h.leads, ?_,
    (congrArg Focus.node hfollows).trans h.node, ?_, (congrArg Focus.nodeBound hfollows).trans h.nodeBound, hpricer⟩
  · exact h.busy.steady ⟨htree, hincumbent, hproblem ▸ .refl _⟩
  · rw [hregistry, hdomains]
    exact h.path
  · rw [hdomains]
    exact (congrArg Focus.depth hfollows).trans h.depth

/-! ## The solve -/

/-- **A point that follows the node** fulfils the relaxation that is solved there. -/
theorem Inspects.fulfils (h : Inspects H hpricers hx tree id bound f) (hfollows : tree.Follows x id)
    {t : Search (Exact ℚ) σ} (hrelaxes : f.search.Relaxes t) {c : Contents (Exact ℚ)}
    (hprimed : t.Primed (H.footing hpricers hx (tree.Follows x id)) c) :
    c.Fulfils t.domains.lower t.domains.upper x := by
  have hretains := h.retains.relaxes hrelaxes
  have hdomains : t.domains = f.search.domains := hrelaxes.part Search.domains fun _ _ _ _ => rfl
  have hregistry : t.registry = f.search.registry := hrelaxes.part Search.registry fun _ _ _ _ => rfl
  have htree : t.tree = f.search.tree := hrelaxes.part Search.tree fun _ _ _ _ => rfl
  have hhere : t.Here x := by
    unfold Search.Here
    rw [hdomains, htree]
    exact h.here hfollows
  have hencloses := hretains.store.top.encloses hhere
  refine ⟨hretains.size.trans hprimed.tracks.numCols.symm, fun v _ => ⟨hencloses.lower v, hencloses.upper v⟩,
    Contents.meets_of hprimed.ready.2 (hretains.meetsConstraints hprimed.synced ?_ hhere hprimed.tracks)⟩
  rw [hregistry, hdomains]
  exact h.path

/-- **A solve.** -/
theorem Inspects.solve (h : Inspects H hpricers hx tree id bound f) :
    Ensures (solve sv) f (fun status g => (Inspects H hpricers hx tree id bound g ∧ Answered H x g) ∧
      match RoundDriver.verdict? status with
      | some outcome => Tells x tree id outcome g
      | none => Bounds x tree id g) fun _ _ => True := by
  refine h.focused.solve.mono ?_ fun _ _ _ => trivial
  rintro status g ⟨hfocused, hsolves⟩
  have hinspects : Inspects H hpricers hx tree id bound g := by
    refine h.follows hfocused hsolves.follows (hsolves.pricerBound.trans ?_)
    split
    · rfl
    · exact h.pricerBound
  obtain ⟨lp, c, t, hlp, rfl, hrelaxes, hprimed, ⟨hsolved, htruthful⟩, hworld, htracks⟩ := hsolves.answer
  have hdomains : g.search.domains = t.domains :=
    (congrArg (fun g => g.search.domains) hsolves.follows).trans (hrelaxes.part Search.domains fun _ _ _ _ => rfl).symm
  refine ⟨⟨hinspects, fun lp' hlp' => ⟨c, ?_, htracks, ?_⟩⟩, ?_⟩
  · exact hworld ▸ ⟨H.holds hprimed.ready.1, hprimed.ready.2⟩
  · obtain rfl := Option.some.inj (hlp.symm.trans hlp')
    rw [hworld, hdomains]
    exact hsolved
  have hproblem : t.problem = f.search.problem := hrelaxes.part Search.problem fun _ _ _ _ => rfl
  have hvalue : ∀ y : Point, c.value y = g.search.valueAt y := fun y => by
    have hg : g.search.problem = f.search.problem := congrArg (fun g => g.search.problem) hsolves.follows
    unfold Contents.value Search.valueAt
    rw [hprimed.tracks.columns, hproblem, ← Problem.value_eq, hg]
  cases hstatus : lp.status with
  | optimal =>
    obtain ⟨y, hsolution, hobjective, hmin⟩ := htruthful.optimal hstatus
    refine ⟨lp, y, hlp, hstatus, hsolution, hobjective.trans (hvalue y), fun hfollows => ?_⟩
    rw [← hvalue, ← hvalue]
    exact hmin x (h.fulfils hfollows hrelaxes hprimed)
  | infeasible => exact fun hfollows => htruthful.infeasible hstatus x (h.fulfils hfollows hrelaxes hprimed)
  | unbounded => trivial
  | limitReached => trivial
  | numericalTrouble => trivial

/-- Without pricers nothing is priced. -/
theorem ensures_price (hpricers : sv.plugins.pricers = []) :
    Ensures (price sv) f (fun added g => added = 0 ∧ g = f) fun _ _ => False := by
  unfold Focus.price
  refine .bind (.get ?_)
  split
  · exact .pure ⟨rfl, rfl⟩
  · rw [hpricers]
    exact .bind (.pure (.bind (.pure (.pure ⟨rfl, rfl⟩))))

theorem ensures_isFeasible : Ensures (isFeasible sv) f (fun _ g => g = f) fun _ _ => False := by
  unfold Focus.isFeasible
  refine .bind (.get ?_)
  split
  · exact .pure rfl
  · exact .pure rfl

/-- The bound of a node at a solution of the relaxation. -/
theorem Inspects.bound_le (h : Inspects H hpricers hx tree id bound f) (hbounds : Bounds x tree id f)
    (hfollows : tree.Follows x id) (hnode : bound ≤ f.search.valueAt x) : f.bound ≤ f.search.valueAt x := by
  obtain ⟨lp, y, hlp, hstatus, -, hobjective, hvalue⟩ := hbounds
  unfold Focus.bound
  rw [hlp, h.nodeBound, h.pricerBound]
  dsimp only
  rw [if_pos hstatus, hobjective]
  exact Exact.max_le' (Exact.max_le' hnode (hvalue hfollows))
    (Scalar.Ordered.negInf_le (Scalar.Ordered.defined_of_le hnode).2)

/-! ## Separation -/

/-- **The cuts that are offered** are proper rows, and hold if the point follows the node. -/
theorem Inspects.offered (h : Inspects H hpricers hx tree id bound f) {cut : Cut (Exact ℚ)}
    (hcut : Offered (H.footing hpricers hx (tree.Follows x id)) f cut) :
    cut.row.Proper ∧ (tree.Follows x id → cut.row.Holds x) ∧
      ((cut.isLocal = true → f.depth = 0) → cut.row.Holds x) := by
  obtain ⟨lp, -, hlinear | hoffers⟩ := hcut
  · -- the row of a lazy constraint
    obtain ⟨c, hc, hbind⟩ := List.mem_filterMap.mp hlinear
    obtain ⟨cons, hcons, hsome⟩ := Option.bind_eq_some_iff.mp hbind
    split at hsome
    · next hlazy =>
      cases hsome
      rw [Bool.and_eq_true, Bool.and_eq_true] at hlazy
      have hholds := h.retains.lazy h.registry hc hcons hlazy.1.1
      exact ⟨h.retains.proper cons (Array.mem_of_getElem? hcons), fun _ => hholds, fun _ => hholds⟩
    · cases hsome
  · refine ⟨hoffers.1, fun hfollows => hoffers.2 fun _ => hfollows, fun hroot => hoffers.2 fun hnode => ?_⟩
    exact h.follows_root (hnode.elim hroot fun hdepth => hdepth)

/-- Separation leaves all else as it is. -/
structure Spares (s t : Search (Exact ℚ) σ) : Prop where
  tree : t.tree = s.tree
  incumbent : t.incumbent = s.incumbent
  problem : t.problem = s.problem
  domains : t.domains = s.domains
  path : t.registry.path.map Prod.fst = s.registry.path.map Prod.fst

omit [Rooted ℚ] in
theorem Spares.steady {s t : Search (Exact ℚ) σ} (h : Spares s t) : s.Steady t :=
  ⟨h.tree, h.incumbent, h.problem ▸ .refl _⟩

/-- Separation adds rows that hold where they apply. -/
theorem Inspects.separates (h : Inspects H hpricers hx tree id bound f) {t : Search (Exact ℚ) σ}
    (ht : Separates f.node f.depth (Offered (H.footing hpricers hx (tree.Follows x id)) f) f.search t) :
    t.Retains x (m.value x) (· = id) ∧ t.Stored ∧ Spares f.search t := by
  induction ht with
  | refl => exact ⟨h.retains, h.focused.synced.filed.stored, ⟨rfl, rfl, rfl, rfl, rfl⟩⟩
  | @relax t u _ hr ih =>
    obtain ⟨hretains, hstored, hspares⟩ := ih
    have hhandlers : u.handlers = t.handlers := hr.part Search.handlers fun _ _ _ _ => rfl
    have hregistry : u.registry = t.registry := hr.part Search.registry fun _ _ _ _ => rfl
    refine ⟨hretains.relaxes hr, ?_, ?_, ?_, ?_, ?_, hregistry ▸ hspares.path⟩
    · unfold Search.Stored
      rw [hregistry, hhandlers]
      exact hstored
    · exact (hr.part Search.tree fun _ _ _ _ => rfl).trans hspares.tree
    · exact (hr.part Search.incumbent fun _ _ _ _ => rfl).trans hspares.incumbent
    · exact (hr.part Search.problem fun _ _ _ _ => rfl).trans hspares.problem
    · exact (hr.part Search.domains fun _ _ _ _ => rfl).trans hspares.domains
  | revive _ ids ih =>
    obtain ⟨hretains, hstored, hspares⟩ := ih
    exact ⟨hretains.congr rfl rfl rfl rfl rfl rfl rfl rfl, hstored, hspares.tree, hspares.incumbent, hspares.problem,
      hspares.domains, hspares.path⟩
  | pool _ _ _ ih =>
    obtain ⟨hretains, hstored, hspares⟩ := ih
    exact ⟨hretains.congr rfl rfl rfl rfl rfl rfl rfl rfl, hstored, hspares.tree, hspares.incumbent, hspares.problem,
      hspares.domains, hspares.path⟩
  | @constraint t cut registry _ hcut hgrown ih =>
    obtain ⟨hretains, hstored, hspares⟩ := ih
    obtain ⟨hproper, hholds, -⟩ := h.offered hcut
    have htree : t.tree = tree := hspares.tree.trans h.sameTree
    rw [h.node] at hgrown
    have hid : id < t.tree.nextId := by
      refine hretains.known id ?_
      rw [hspares.domains]
      exact h.leads.mem
    exact ⟨hretains.withLocalCut hstored hgrown hid hproper (htree ▸ hholds), hstored.withLocalCut hgrown,
      hspares.tree, hspares.incumbent, hspares.problem, hspares.domains, hgrown.nodes.trans hspares.path⟩

/-- What the relaxation holds fits its solution. -/
theorem Inspects.fits (h : Inspects H hpricers hx tree id bound f) (hbounds : Bounds x tree id f)
    (hanswered : Answered H x f) : f.Fits (H.footing hpricers hx (tree.Follows x id)) := by
  intro lp hlp
  obtain ⟨lp', y, hlp', hoptimal, -⟩ := hbounds
  obtain rfl := Option.some.inj (hlp.symm.trans hlp')
  obtain ⟨c, hholds, htracks, hsolved⟩ := hanswered lp hlp
  have hstore := h.retains.store.top
  refine ⟨c, hholds, htracks, ⟨lp, hsolved, hoptimal, rfl⟩, fun g hg => ⟨h.retains.minFrac g hg, hstore.grid, ?_⟩,
    fun hfollows => ⟨hstore.encloses (h.here hfollows), h.retains.size.trans htracks.numCols.symm,
      h.retains.meetsConstraints h.focused.synced h.path (h.here hfollows) htracks⟩⟩
  exact hstore.size.1.trans (h.retains.size.trans htracks.numCols.symm)

/-- **Separation.** -/
theorem Inspects.separate (h : Inspects H hpricers hx tree id bound f) (hbounds : Bounds x tree id f)
    (hanswered : Answered H x f) (enforceOnly : Bool) :
    Ensures (separate sv enforceOnly) f (fun _ g => Inspects H hpricers hx tree id bound g ∧
      Bounds x tree id g) fun _ _ => True := by
  refine (h.focused.separate (h.fits hbounds hanswered) (fun cut hcut hroot => (h.offered hcut).2.2 hroot) enforceOnly).mono ?_
    fun _ _ _ => trivial
  rintro _ _ ⟨hfocused, t, rfl, hsep⟩
  obtain ⟨hretains, -, hspares⟩ := h.separates hsep
  refine ⟨⟨hfocused, hretains, h.busy.steady hspares.steady, hspares.tree.trans h.sameTree, ?_, ?_, h.node, ?_,
    h.nodeBound, h.pricerBound⟩, ?_⟩
  · exact hspares.domains ▸ h.leads
  · exact hspares.path.trans (hspares.domains ▸ h.path)
  · exact hspares.domains ▸ h.depth
  · obtain ⟨lp, y, hlp, hstatus, hsolution, hobjective, hle⟩ := hbounds
    have hvalue : ∀ z, Search.valueAt { f with search := t }.search z = f.search.valueAt z :=
      fun z => congrArg (Problem.value · z.vector) hspares.problem
    exact ⟨lp, y, hlp, hstatus, hsolution, hobjective.trans (hvalue y).symm, fun hfollows => by
      rw [hvalue, hvalue]
      exact hle hfollows⟩

/-! ## The rounds -/

/-- **Propagation in the rounds.** -/
theorem Inspects.propagate (h : Inspects H hpricers hx tree id bound f) :
    Ensures ((driver sv).propagate) f (fun alive g => Inspects H hpricers hx tree id bound g ∧
      (alive = false → ¬ tree.Follows x id)) fun _ _ => True := by
  have hretains := ensures_onSearch (f := f) (F := H.footing hpricers hx (tree.Follows x id))
    ((h.retains.propagate sv h.builtIn h.registry h.path (h.sameTree.symm ▸ h.leads)).mono (fun _ _ ht => ht)
      fun _ _ _ => .inl trivial)
  refine (h.focused.propagate.and hretains).mono ?_ fun _ _ _ => trivial
  rintro alive _ ⟨⟨hfocused, hframe⟩, t, rfl, hretains, hpath, hcut⟩
  have hframe' : t = { f.search with domains := t.domains, stats := t.stats } := congrArg Focus.search hframe
  have htree : t.tree = f.search.tree := by rw [hframe']
  have hsteady : f.search.Steady t := ⟨htree, by rw [hframe'], by rw [hframe']; exact .refl _⟩
  have hregistry : t.registry = f.search.registry := by rw [hframe']
  refine ⟨⟨hfocused, hretains, h.busy.steady hsteady, htree.trans h.sameTree, ?_, ?_, h.node, ?_, h.nodeBound,
    h.pricerBound⟩, fun hdead hfollows => hcut hdead (h.here hfollows)⟩
  · exact hpath ▸ h.leads
  · show t.registry.path.map Prod.fst = t.domains.path.reverse
    rw [hregistry, hpath]
    exact h.path
  · exact hpath ▸ h.depth

/-- **The rounds** of a node. -/
theorem contract_inspects (H : Honest sv m) (hpricers : sv.plugins.pricers = []) (hx : m.Feasible x) (id : NodeId)
    (tree : SearchTree (Exact ℚ)) (bound : Exact ℚ) :
    (driver sv).Contract (Inspects H hpricers hx tree id bound)
      (fun f => (Inspects H hpricers hx tree id bound f ∧ Answered H x f) ∧ Bounds x tree id f)
      (fun outcome f => Inspects H hpricers hx tree id bound f ∧ Tells x tree id outcome f) fun _ _ => True where
  ready _ := trivial
  solved _ := trivial
  solve h := by
    refine h.solve.mono ?_ fun _ _ _ => trivial
    rintro status g ⟨hg, htells⟩
    cases hverdict : RoundDriver.verdict? status with
    | some outcome =>
      rw [hverdict] at htells
      exact ⟨hg.1, htells⟩
    | none =>
      rw [hverdict] at htells
      exact ⟨hg, htells⟩
  price h := by
    refine (ensures_price hpricers).mono ?_ fun _ _ => False.elim
    rintro added g ⟨hadded, rfl⟩
    rw [if_pos hadded]
    exact h
  exceeded h hexceeded := ⟨h.1.1, h.2, hexceeded⟩
  feasible h := by
    refine ensures_isFeasible.mono ?_ fun _ _ => False.elim
    rintro is g rfl
    split
    · exact ⟨h.1.1, h.2⟩
    · exact h
  separate h enforceOnly := by
    refine (h.1.1.separate h.2 h.1.2 enforceOnly).mono ?_ fun _ _ _ => trivial
    rintro sep g ⟨hg, hbounds⟩
    split
    · exact ⟨hg, hbounds⟩
    · exact hg
  propagate h := by
    refine h.propagate.mono ?_ fun _ _ _ => trivial
    rintro alive g ⟨hg, hcut⟩
    split
    · exact hg
    · next hdead => exact ⟨hg, hcut (Bool.eq_false_iff.mpr hdead)⟩

end

end BranchAndCut.Focus

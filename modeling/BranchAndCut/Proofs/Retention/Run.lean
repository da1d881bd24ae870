import BranchAndCut.Proofs.Retention.Nodes
import BranchAndCut.Proofs.Retention.Simplex
import BranchAndCut.Proofs.Solve.Decided
import BranchAndCut.Proofs.Solve.Watch

/-! # No feasible point is lost

At the start of every iteration each feasible point that improves on the incumbent follows
an open or an unresolved node, whose bound does not exceed the value of the point. So where
a run ends with the tree exhausted and nothing unresolved, no feasible point improves. -/

namespace BranchAndCut

/-! ## The problem a search starts with -/

namespace Problem

variable [Rooted ℚ] {p q : Problem (Exact ℚ)} {v : VarId}

/-- The same variables are integral, and they cost the same. -/
structure SameObjective (p q : Problem (Exact ℚ)) : Prop where
  numVars : q.numVars = p.numVars
  maximize : q.maximize = p.maximize
  obj : ∀ v, (q.var v).obj = (p.var v).obj
  integral : ∀ v, q.isIntegral v = p.isIntegral v

theorem sameObjective_asBinary (hv : v < p.numVars) : SameObjective p (Search.asBinary p v) := by
  unfold Search.asBinary
  dsimp only
  split
  · next hbinary =>
    rw [Bool.and_eq_true, Bool.and_eq_true] at hbinary
    have htype : (p.var v).type = .integer := of_decide_eq_true hbinary.1.1
    split
    · next q hchange =>
      obtain ⟨hsize, hmaximize, hobj⟩ := Model.obj_changeType hv hchange
      refine ⟨hsize, hmaximize, hobj, fun w => ?_⟩
      rcases changeType_spec hchange with rfl | rfl
      · rfl
      · unfold isIntegral
        rw [p.var_modify hv]
        split
        · next heq =>
          rw [heq, htype]
          rfl
        · rfl
    · exact ⟨rfl, rfl, fun _ => rfl, fun _ => rfl⟩
  · exact ⟨rfl, rfl, fun _ => rfl, fun _ => rfl⟩

theorem sameObjective_foldl {vars : List VarId} (hvars : ∀ v ∈ vars, v < p.numVars) :
    SameObjective p (vars.foldl Search.asBinary p) := by
  induction vars generalizing p with
  | nil => exact ⟨rfl, rfl, fun _ => rfl, fun _ => rfl⟩
  | cons v vars ih =>
    have hfirst := sameObjective_asBinary (hvars v List.mem_cons_self)
    have hrest := ih (p := Search.asBinary p v) fun w hw => hfirst.numVars ▸ hvars w (List.mem_cons_of_mem _ hw)
    exact ⟨hrest.numVars.trans hfirst.numVars, hrest.maximize.trans hfirst.maximize,
      fun w => (hrest.obj w).trans (hfirst.obj w), fun w => (hrest.integral w).trans (hfirst.integral w)⟩

theorem SameObjective.costs (h : SameObjective p q) : q.costs = p.costs := by
  rw [← Problem.map_cost_range, ← Problem.map_cost_range, h.numVars]
  refine List.map_congr_left fun v _ => ?_
  unfold cost sign
  rw [h.maximize, h.obj]

end Problem

/-! ## The next node -/

namespace SearchTree

variable [Rooted ℚ] {t u : SearchTree (Exact ℚ)} {p : Point} {q : Exact ℚ} {n : NodeId} {node : Node (Exact ℚ)}

omit [Rooted ℚ] in
theorem Thins.grows (h : Thins t u) (hnext : u.nextId = t.nextId) : Grows t u := by
  refine ⟨hnext.ge, fun hn _ => ?_⟩
  obtain ⟨old, hold, hparent, hchanges⟩ := h hn
  exact ⟨old, hold, hparent, fun c hc => hchanges ▸ hc⟩

theorem Thins.anchored (h : Thins t u) (ht : t.Anchored p) : u.Anchored p := by
  intro m x hx hnone
  obtain ⟨old, hold, hparent, hchanges⟩ := h hx
  exact hchanges ▸ ht m old hold (hparent ▸ hnone)

/-- A point follows the nodes that stay. -/
theorem Thins.follows (h : Thins t u) {out : NodeId → Prop} (hu : u.Wf out) (ht : t.Follows p n) {x : Node (Exact ℚ)}
    (hx : u.node? n = some x) : u.Follows p n := by
  refine ht.forward hu (fun hold hz hm => ?_) hx
  obtain ⟨old, hold', hparent, hchanges⟩ := h hz
  obtain rfl := Option.some.inj (hold.symm.trans hold')
  exact ⟨hparent, hchanges ▸ hm.changes hold⟩

/-- **Taking the next node** leaves the nodes that are worth it: such a node is taken or
waits on, and if there was none to take it is not open. -/
theorem popNext_covers (ht : t.Wf fun _ => False) {prunable : Exact ℚ → Bool} {next : Option NodeId}
    (hret : Returns (popNext prunable) t next u) (hprunable : ∀ b, b ≤ q → prunable b = false)
    (h : t.Covers p q n node) :
    ∃ x, u.Covers p q n x ∧ (x.status = node.status ∧ (next = none → x.status ≠ .open) ∨ next = some n) := by
  obtain ⟨next', u', hret', hu, v, hcloses, htakes⟩ := popNext_spec ht prunable
  obtain ⟨rfl, rfl⟩ := hret'.unique hret
  obtain ⟨next'', u'', hret'', -, hthins⟩ := popNext_trims ht prunable
  obtain ⟨rfl, rfl⟩ := hret''.unique hret
  have hnot := h.not_dominated hprunable
  obtain ⟨x, hx⟩ := hcloses.kept h.mem h.waits hnot
  obtain ⟨old, hold, -, -, hbound, hstatus⟩ := hcloses.nodes hx
  obtain rfl := Option.some.inj (h.mem.symm.trans hold)
  have hsame : x.status = node.status := hstatus.resolve_right fun hg => hnot hg.1
  have hread : ∀ y, u.node? n = some y → y.status.isClosed = false → y.dualBound = x.dualBound →
      u.Covers p q n y := fun y hy hwaits hy' =>
    ⟨hy, hwaits, (hy'.trans hbound) ▸ h.bound, hthins.follows hu h.follows hy⟩
  cases next with
  | none =>
    obtain ⟨rfl, hnone⟩ := htakes
    exact ⟨x, hread x hx (hsame ▸ h.waits) rfl, .inl ⟨hsame, fun _ => hnone n x hx⟩⟩
  | some m =>
    obtain ⟨taken, hm, hid, hopen, -, rfl⟩ := htakes
    have hnode : (v.setNode { taken with status := .solving }).node? n =
        if m = n then some { taken with status := .solving } else some x := by
      rw [node?_setNode, ← hx]
      exact congrArg (fun k => if k = n then some { taken with status := NodeStatus.solving } else v.node? n) hid
    by_cases hmn : m = n
    · subst hmn
      obtain rfl := Option.some.inj (hx.symm.trans hm)
      rw [if_pos rfl] at hnode
      exact ⟨_, hread _ hnode rfl rfl, .inr rfl⟩
    · rw [if_neg hmn] at hnode
      exact ⟨x, hread x hnode (hsame ▸ h.waits) rfl, .inl ⟨hsame, nofun⟩⟩

end SearchTree

namespace Search

variable [Rooted ℚ] {σ : Type} {sv : Solver (Exact ℚ) σ} {m : Model (Exact ℚ) σ} {w : σ} {x : Point} {id : NodeId}
  {s t u : Search (Exact ℚ) σ} {q : Exact ℚ} {busy : NodeId → Prop}

/-- **The next node** is taken, and the point is retained. -/
theorem Retains.popNext (h : s.Retains x q fun _ => False) (hwf : s.tree.Wf fun _ => False)
    {next : Option NodeId} (hpop : Returns (onTree (SearchTree.popNext s.incumbent.isPrunable)) s next t)
    (hnext : ∀ n, next = some n → busy n) : t.Retains x q busy := by
  obtain ⟨tree, hret, rfl⟩ := hpop.onPart
  obtain ⟨next', tree', hret', htrims, hthins⟩ := SearchTree.popNext_trims hwf s.incumbent.isPrunable
  obtain ⟨rfl, rfl⟩ := hret'.unique hret
  refine h.withTree hwf (hthins.grows htrims.nextId) (hthins.anchored h.anchored) fun hq => ?_
  obtain ⟨n, node, hcovers, hsolving⟩ := h.covered hq
  obtain ⟨y, hy, hstatus⟩ := SearchTree.popNext_covers hwf hret (fun b hb => hq.not_prunable hb) hcovers
  refine ⟨n, y, hy, fun hbusy => ?_⟩
  rcases hstatus with ⟨hsame, -⟩ | htaken
  · exact (hsolving (hsame ▸ hbusy)).elim
  · exact hnext n htaken

/-- **With no node left** that is open, and none unresolved, no point improves. -/
theorem Retains.exhausted (h : s.Retains x q fun _ => False) (hwf : s.tree.Wf fun _ => False)
    (hpop : Returns (onTree (SearchTree.popNext s.incumbent.isPrunable)) s none t)
    (hresolved : t.tree.unresolved = []) : ¬ t.incumbent.Improves (t.valueAt x) := by
  intro hq
  obtain ⟨tree, hret, rfl⟩ := hpop.onPart
  obtain ⟨next', tree', hret', hwf', -⟩ := SearchTree.popNext_spec hwf s.incumbent.isPrunable
  obtain ⟨rfl, rfl⟩ := hret'.unique hret
  obtain ⟨n, node, hcovers, hsolving⟩ := h.covered hq
  obtain ⟨y, hy, hstatus⟩ := SearchTree.popNext_covers hwf hret (fun b hb => hq.not_prunable hb) hcovers
  obtain ⟨hsame, hopen⟩ := hstatus.resolve_right nofun
  have hopen := hopen rfl
  cases hcase : y.status with
  | «open» => exact hopen hcase
  | solving => exact hsolving (hsame ▸ hcase)
  | unresolved =>
    have hmem := hwf'.listed.mpr ⟨y, hy.mem, hcase⟩
    change tree.unresolved = [] at hresolved
    rw [hresolved] at hmem
    cases hmem
  | _ =>
    have hwaits := hy.waits
    rw [hcase] at hwaits
    cases hwaits

/-! ## Iterations -/

/-- **The dual bound** is taken up. -/
theorem Retains.updateDual (h : s.Retains x q busy) (hwf : s.tree.Wf fun _ => False)
    (ht : Returns Search.updateDual s ⟨⟩ t) : t.Retains x q busy := by
  obtain rfl := ht.modify
  have hthins : SearchTree.Thins s.tree s.tree.lowestBound.2 := fun hn => ⟨_, hn, rfl, rfl⟩
  refine h.withTree hwf (hthins.grows rfl) (hthins.anchored h.anchored) fun hq => ?_
  obtain ⟨n, node, hcovers, hbusy⟩ := h.covered (Incumbent.Improves.of_updateDual hq)
  exact ⟨n, node, ⟨hcovers.mem, hcovers.waits, hcovers.bound,
    hthins.follows hwf.lowestBound_wf hcovers.follows hcovers.mem⟩, hbusy⟩

section

variable (H : Honest sv m) (hpricers : sv.plugins.pricers = []) (hx : m.Feasible x)

/-- The search at the start of an iteration. -/
structure Awaits (s : Search (Exact ℚ) σ) : Prop where
  synced : s.Synced (H.footing hpricers hx True)
  accounted : s.Accounted
  begun : s.Begun
  retains : s.Retains x (m.value x) fun _ => False

variable {H hpricers hx}

/-- **One iteration** retains the point. -/
theorem Awaits.step (h : Awaits H hpricers hx s) (hstep : Returns (step sv) s none t) : Awaits H hpricers hx t := by
  rcases step_cases hstep with ⟨_, -, hanswer, -⟩ | ⟨-, _, -, hanswer, -⟩ |
    ⟨-, id, u, hpop, result, v, w, hprocess, hrelease, hrest⟩
  · cases hanswer
  · cases hanswer
  rcases hrest with ⟨-, hanswer, -⟩ | ⟨rfl, -, hdual⟩
  · cases hanswer
  have hsynced := (h.synced.onTree (h.synced.filed.named.popNext _)).returns hpop
  have hretains : u.Retains x (m.value x) (· = id) := h.retains.popNext h.accounted.tree hpop fun n hn => (Option.some.inj hn).symm
  have hbusy := h.accounted.popNext h.begun hpop
  have hwaiting : (retaining H hpricers hx id).waiting { u with
      stats := { u.stats with nodesProcessed := u.stats.nodesProcessed + 1 } } :=
    ⟨hsynced.transfer rfl rfl rfl rfl rfl rfl rfl rfl hsynced.filed.named, hretains.congr rfl rfl rfl rfl rfl rfl rfl rfl,
      hbusy.steady ⟨rfl, rfl, .refl _⟩⟩
  have hrests := ((contract_retaining H hpricers hx id).processNode hwaiting).returns hprocess rfl
  obtain ⟨hsynced, ids, hfrees⟩ := hrests.synced.releaseNodes.returns hrelease
  have hunderway := hrests.underway.releaseNodes.returns hrelease
  have hretains := hrests.retains.frees hrests.synced.filed hrests.underway.tree hfrees
  obtain ⟨ht, -⟩ := hunderway.updateDual hdual
  refine ⟨?_, ht.toAccounted, .inl ht.started, hretains.updateDual hunderway.tree hdual⟩
  obtain rfl := hdual.modify
  exact hsynced.transfer rfl rfl rfl rfl rfl rfl rfl rfl fun _ _ hn => ht.tree.id hn

end

/-! ## The start -/

/-- **The domains** that a search starts with enclose the feasible points. -/
theorem within_ofModel (hx : m.Feasible x) (hm : m.Assembled) (htol : 0 ≤ sv.settings.feasTol) (F : NodeId → Prop) :
    Domains.Within F x (ofModel sv m w).domains := by
  obtain ⟨-, -, -, hdomains⟩ := ofModel_parts sv m w
  have hranges := hm.tidy.foldl_asBinary_ranges fun v => List.mem_range.mp
  have hsame := Problem.sameObjective_foldl (p := m.problem) fun v => List.mem_range.mp
  have hgrid := ofModel_onGrid sv hm w
  rw [hdomains] at hgrid ⊢
  generalize (List.range m.problem.numVars).foldl asBinary m.problem = p at hranges hsame hgrid
  have hsize : (p.vars.map (·.lower)).size = x.size :=
    Array.size_map.trans ((show p.vars.size = m.problem.numVars from hranges.numVars).trans hx.size.symm)
  have hbounds : ∀ v, (p.vars.map (·.lower)).getD v 0 ≤ .fin (x.coord v) ∧
      .fin (x.coord v) ≤ (p.vars.map (·.upper)).getD v 0 := fun v => by
    rw [p.getD_vars, p.getD_vars]
    split
    · next hlt =>
      rw [hranges.lower, hranges.upper]
      exact hx.bounds v (Nat.lt_of_lt_of_eq hlt hranges.numVars)
    · next hnot =>
      have hzero : x.coord v = 0 := by
        unfold Point.coord
        rw [Array.getD_eq_getD_getElem?, Array.getElem?_eq_none]
        · rfl
        · rw [hx.size]
          exact Nat.le_of_not_lt fun hlt => hnot (Nat.lt_of_lt_of_eq hlt hranges.numVars.symm)
      rw [hzero, Exact.zero_def]
      exact ⟨le_refl (0 : ℚ), le_refl (0 : ℚ)⟩
  have hintegral : ∀ v, (p.vars.map (·.type.isIntegral)).getD v false = true → x.IsInt v := fun v hv => by
    rw [p.getD_vars] at hv
    split at hv
    · exact hx.integral v ((hsame.integral v).symm.trans hv)
    · cases hv
  exact ⟨htol, ⟨hsize, hsize⟩, hgrid, hintegral, hbounds, fun _ => ⟨fun v => (hbounds v).1, fun v => (hbounds v).2, hintegral⟩, fun _ => nofun⟩

/-- With a feasible point no domain is empty. -/
theorem hasEmptyDomain_ofModel (hx : m.Feasible x) (hm : m.Assembled) (htol : 0 ≤ sv.settings.feasTol) :
    (ofModel sv m w).domains.hasEmptyDomain = false := by
  have hwithin := within_ofModel (w := w) hx hm htol fun _ => False
  obtain ⟨-, -, -, hdomains⟩ := ofModel_parts sv m w
  rw [hdomains] at hwithin ⊢
  generalize (List.range m.problem.numVars).foldl asBinary m.problem = p at hwithin ⊢
  refine decide_eq_false (Nat.not_lt.mpr (Nat.le_zero.mpr (List.countP_eq_zero.mpr ?_)))
  rintro ⟨l, u⟩ hmem
  obtain ⟨v, hv, heq⟩ := List.mem_iff_getElem.mp hmem
  rw [List.getElem_zip, Prod.mk.injEq] at heq
  rw [List.length_zip, Nat.lt_min, Array.length_toList, Array.length_toList] at hv
  obtain ⟨hlower, hupper⟩ := hwithin.globally v
  unfold Domains.globalLb Domains.new at hlower
  unfold Domains.globalUb Domains.new at hupper
  dsimp only at hlower hupper
  rw [Array.getD_eq_getD_getElem?, Array.getElem?_eq_getElem hv.1, Option.getD_some, ← Array.getElem_toList,
    heq.1] at hlower
  rw [Array.getD_eq_getD_getElem?, Array.getElem?_eq_getElem hv.2, Option.getD_some, ← Array.getElem_toList,
    heq.2] at hupper
  simpa using Exact.not_lt_of_le (Exact.le_trans' hlower (Exact.fin_le_add htol hupper))

/-- The built-in separator uses rows whose fraction is not zero. -/
theorem ofModel_minFrac : ∀ g ∈ (ofModel sv m w).gomory, 0 < g.minFrac := by
  intro g hg
  have hpos : (0 : Exact ℚ) < GomorySettings.default.minFrac := by
    show (0 : Exact ℚ) < 0.01
    rw [Exact.scientific_def, Exact.zero_def, Exact.fin_lt]
    norm_num
  unfold ofModel at hg
  dsimp only at hg
  split at hg
  · obtain rfl := Option.mem_some_iff.mp hg
    exact hpos
  · cases hg

section

variable (H : Honest sv m) (hpricers : sv.plugins.pricers = []) (hx : m.Feasible x)

/-- With the root alone in the tree, the point is retained. -/
theorem retains_root (htol : 0 ≤ sv.settings.feasTol) (hm : m.Built) (hx : m.Feasible x) (himpl : m.implications.Holds x)
    (hclerical : (ofModel sv m w).Clerical s) {tree : SearchTree (Exact ℚ)}
    (hnodes : ∀ n, tree.node? n = if 0 = n then some (Node.root 0 Scalar.negInf) else none) :
    Retains x (m.value x) (fun _ => False) { s with tree } := by
  obtain ⟨hproblem, hregistry, hhandlers, hdomains⟩ := ofModel_parts sv m w
  have himplications : (ofModel sv m w).implications = m.implications :=
    foldl_lockCons Search.implications (fun _ _ _ => rfl) _ _
  have hsproblem := (hclerical.part Search.problem fun _ _ _ _ _ => rfl).trans hproblem
  have hsregistry := (hclerical.part Search.registry fun _ _ _ _ _ => rfl).trans hregistry
  have hshandlers := (hclerical.part Search.handlers fun _ _ _ _ _ => rfl).trans hhandlers
  have hsdomains : s.domains = _ := hclerical.part Search.domains fun _ _ _ _ _ => rfl
  have hsimplications := (hclerical.part Search.implications fun _ _ _ _ _ => rfl).trans himplications
  have hregular := hm.regular
  have hsame := Problem.sameObjective_foldl (p := m.problem) fun v => List.mem_range.mp
  have htidy := hm.assembled.tidy.foldl_asBinary fun v => List.mem_range.mp
  rw [← hsproblem] at hsame htidy
  have hframes : s.domains.frames = [] := by
    rw [hsdomains, hdomains]
    rfl
  have hread : tree.node? 0 = some (Node.root 0 Scalar.negInf) := hnodes 0
  refine {
    size := hx.size.trans hsame.numVars.symm
    value := ?_
    finite := fun a ha => ?_
    minFrac := (hclerical.part Search.gomory fun _ _ _ _ _ => rfl).symm ▸ ofModel_minFrac
    partitioned := htidy.partitioned
    branchable := fun v hv => ?_
    implications := hsimplications ▸ himpl
    proper := hshandlers ▸ hregular.proper
    constraints := fun id hid _ _ => ?_
    scopes := fun id hid n hn => ?_
    store := fun k hk => ?_
    known := fun n hn => ?_
    anchored := fun n node hn _ => ?_
    covered := fun hq => ⟨0, _, ⟨hread, rfl, ?_, .root hread rfl nofun⟩, nofun⟩ }
  · show s.problem.value x.vector = m.problem.value x.vector
    rw [Problem.value_eq, hsame.costs, ← Problem.value_eq]
  · change a ∈ s.problem.costs at ha
    rw [hsame.costs, ← Problem.map_cost_range] at ha
    obtain ⟨v, hv, rfl⟩ := List.mem_map.mp ha
    obtain ⟨c, hc⟩ := Exact.isFinite_iff.mp (hregular.finite v (List.mem_range.mp hv))
    unfold Problem.cost Problem.sign
    rw [hc]
    split <;> rfl
  · exact hx.integral v ((hsame.integral v).symm.trans
      (VarType.isIntegral_of_isBranchable (htidy.partitioned.mem_branchable.mp hv).2))
  · dsimp only at hid ⊢
    rw [hsregistry] at hid ⊢
    rw [hshandlers]
    exact hx.constraints id hid
  · dsimp only at hid hn
    rw [hsregistry] at hid hn
    rw [hregular.everywhere id hid] at hn
    cases hn
  · dsimp only at hk ⊢
    rw [hframes] at hk
    obtain rfl : k = 0 := Nat.le_zero.mp hk
    exact hsdomains ▸ within_ofModel hx hm.assembled htol _
  · unfold Domains.path at hn
    dsimp only at hn
    rw [hframes] at hn
    cases hn
  · dsimp only at hn
    rw [hnodes] at hn
    split at hn
    · cases hn
      nofun
    · cases hn
  · exact Scalar.Ordered.negInf_le (Scalar.Ordered.defined_of_le (Scalar.Ordered.le_of_lt hq)).1

/-- **Before the first iteration** the root covers the point. -/
theorem awaits_root (htol : 0 ≤ sv.settings.feasTol) (hm : m.Built) (himpl : m.implications.Holds x) (hw : H.Holds w {})
    (hsetUp : Returns (setUp sv) (.ofModel sv m w) ⟨⟩ s)
    (hroot : Returns (onTree (SearchTree.createRoot Scalar.negInf)) s id t) : Awaits H hpricers hx t := by
  have hclerical : (ofModel sv m w).Clerical s := (setUp_clerical _).returns hsetUp
  have hempty : (H.footing hpricers hx True).Holds w {} := ⟨hw, fun id row hrow => by cases hrow⟩
  obtain ⟨hsynced, -⟩ := (fresh_ofModel hm hempty).setUp.returns hsetUp
  obtain ⟨haccounted, -, hbegun⟩ := accounted_root htol hsetUp hroot
  have hstree : s.tree = SearchTree.new sv.settings.nodeSelection :=
    (hclerical.part Search.tree fun _ _ _ _ _ => rfl).trans (ofModel_start sv m w).1
  obtain ⟨tree, hret, hwf, -, -, hnodes⟩ := SearchTree.createRoot_spec sv.settings.nodeSelection (Scalar.negInf : Exact ℚ)
  obtain ⟨tree', hret', rfl⟩ := hroot.onPart
  rw [hstree] at hret'
  obtain ⟨rfl, rfl⟩ := hret'.unique hret
  exact ⟨hsynced.transfer rfl rfl rfl rfl rfl rfl rfl rfl fun _ _ hn => hwf.id hn, haccounted, hbegun,
    retains_root htol hm hx himpl hclerical hnodes⟩

end

/-! ## A whole run -/

omit [Rooted ℚ] in
/-- A limit is no proof. -/
theorem limit?_inconclusive {K : Type} [Scalar K] {sv : Solver K σ} {s : Search K σ} {status : Status}
    (h : s.limit? sv = some status) : ¬ (status = .optimal ∨ status = .infeasible) := by
  unfold Search.limit? at h
  dsimp only at h
  repeat' split at h
  all_goals cases h
  all_goals nofun

omit [Rooted ℚ] in
/-- A tree is exhausted conclusively if no node is unresolved. -/
theorem unresolved_of_exhausted {K : Type} {s : Search K σ} (h : s.exhausted = .optimal ∨ s.exhausted = .infeasible) :
    s.tree.unresolved = [] := by
  unfold Search.exhausted at h
  split at h
  · rcases h with h | h <;> cases h
  · next hzero => exact List.eq_nil_of_length_eq_zero (Nat.eq_zero_of_not_pos hzero)

section

variable {Apt : σ → Prop} [DecidablePred Apt] (hvalid : sv.settings.validate = .ok ⟨⟩)
  (hpricers : sv.plugins.pricers = []) (hm : m.Built) (himpl : ∀ x, m.Feasible x → m.implications.Holds x)
  (H : Honest (sv.guarded Apt) m) (hw : H.Holds w {}) (htableau : TableauIn sv Apt (.ofModel sv m w))

include hvalid hpricers hm himpl hw htableau

/-- At the start of every iteration the feasible points are retained. -/
theorem Visits.awaits (h : Visits sv (.ofModel sv m w) s) (hx : m.Feasible x) :
    Awaits H hpricers hx s := by
  obtain ⟨-, -, hpos, -⟩ := Settings.validate_spec hvalid
  exact (htableau.visits h).invariant (fun _ _ _ hsetUp _ hroot =>
    awaits_root H hpricers hx (Scalar.Ordered.le_of_lt hpos) hm (himpl x hx) hw hsetUp hroot) fun _ _ hs hstep => hs.step hstep

/-- **No feasible point is lost.** At the start of every iteration each feasible point that
improves on the incumbent satisfies all bound changes on the path of an open or an unresolved
node, whose dual bound does not exceed the value of the point. So when a run ends as optimal
or infeasible, no feasible point improves. The built-in separator is used only in worlds where
its cuts are known to be valid: in all of them, if it is honest without a guard. -/
theorem run_loses_nothing : (∀ s, Visits sv (.ofModel sv m w) s → ∀ x, m.Feasible x → s.incumbent.Improves (m.value x) →
      ∃ n node, s.tree.Covers x (m.value x) n node ∧ (node.status = .open ∨ node.status = .unresolved)) ∧
    ∀ out t, Returns (run sv) (.ofModel sv m w) out t → out.status = .optimal ∨ out.status = .infeasible →
      ∀ x, m.Feasible x → ¬ t.incumbent.Improves (m.value x) := by
  refine ⟨fun s hs x hx hq => ?_, fun out t hrun hstatus x hx => ?_⟩
  · have hretains := (hs.awaits hvalid hpricers hm himpl H hw htableau hx).retains
    obtain ⟨n, node, hcovers, hsolving⟩ := hretains.covered (hretains.value.symm ▸ hq)
    rw [hretains.value] at hcovers
    refine ⟨n, node, hcovers, ?_⟩
    have hwaits := hcovers.waits
    cases hcase : node.status with
    | «open» => exact .inl rfl
    | unresolved => exact .inr rfl
    | solving => exact (hsolving hcase).elim
    | _ =>
      rw [hcase] at hwaits
      cases hwaits
  · rcases run_ends hrun with ⟨hsetUp, hempty, -⟩ | ⟨s, status, hs, hstep, rfl⟩
    · obtain ⟨-, -, hpos, -⟩ := Settings.validate_spec hvalid
      have hdomains : t.domains = (ofModel sv m w).domains :=
        ((setUp_clerical _).returns hsetUp).part Search.domains fun _ _ _ _ _ => rfl
      rw [hdomains, hasEmptyDomain_ofModel hx hm.assembled (Scalar.Ordered.le_of_lt hpos)] at hempty
      cases hempty
    · have h := hs.awaits hvalid hpricers hm himpl H hw htableau hx
      rcases step_cases hstep with ⟨status', hlimit, heq, rfl⟩ | ⟨-, u, hpop, heq, rfl⟩ |
        ⟨-, id, u, -, result, v, w', -, -, ⟨-, heq, -⟩ | ⟨-, heq, -⟩⟩
      · obtain rfl := Option.some.inj heq
        exact absurd hstatus (limit?_inconclusive hlimit)
      · obtain rfl := Option.some.inj heq
        have hretains : t.Retains x (m.value x) fun _ => False := h.retains.popNext h.accounted.tree hpop nofun
        exact hretains.value ▸ h.retains.exhausted h.accounted.tree hpop (unresolved_of_exhausted hstatus)
      · obtain rfl := Option.some.inj heq
        rcases hstatus with hstatus | hstatus <;> cases hstatus
      · cases heq

end

end Search

namespace Search

/-- An integer variable that two rows together keep below 3/2. -/
def wedged : Model (Exact ℚ) (KeyedSimplex (Exact ℚ)) :=
  Model.after (Model.addLinear "s" [(0, 2), (1, -2)] Scalar.negInf 1 .plain)
    (Model.after (Model.addLinear "r" [(0, 2), (1, 2)] Scalar.negInf 5 .plain)
      (Model.after (Model.addVar "y" .continuous 0 3 0) (Model.after (Model.addVar "x" .integer 0 3 (-1)) (.new "wedged"))))

theorem wedged_built : wedged.Built := ((((Model.Built.new _).addVar ..).addVar ..).addLinear ..).addLinear ..

/-- The rows in canonical form. -/
theorem wedged_rows : Row.canonical [((0 : VarId), (2 : Exact ℚ)), (1, 2)] = [(0, 2), (1, 2)] ∧
    Row.canonical [((0 : VarId), (2 : Exact ℚ)), (1, -2)] = [(0, 2), (1, -2)] := ⟨by cbv, by cbv⟩

theorem vector_wedged : Point.vector #[1, 1 / 2] = #[.fin 1, .fin (1 / 2)] := List.map_toArray

/-- Two variables and two rows, and no implications. -/
theorem wedged_contents : wedged.numVars = 2 ∧
    (∀ v < 2, (wedged.problem.var v).lower ≤ .fin (Point.coord #[1, 1 / 2] v) ∧
      .fin (Point.coord #[1, 1 / 2] v) ≤ (wedged.problem.var v).upper) ∧
    (wedged.registry.size = 2 ∧ (∀ id < 2, wedged.registry.handler id = 0) ∧
      ∀ cons ∈ wedged.handlers.linear.conss.toList, cons.row.lhs ≤ cons.row.activity #[.fin 1, .fin (1 / 2)] ∧
        cons.row.activity #[.fin 1, .fin (1 / 2)] ≤ cons.row.rhs) ∧
    wedged.problem.isIntegral 1 = false ∧
    wedged.implications.implications = #[] ∧ wedged.implications.cliques = #[] := by
  unfold wedged Model.addLinear Row.of
  rw [wedged_rows.1, wedged_rows.2]
  decide +kernel

/-- A point that is feasible, and best. -/
theorem wedged_feasible : wedged.Feasible #[1, 1 / 2] := by
  obtain ⟨hnum, hbounds, ⟨hsize, hhandler, hrows⟩, hintegral, -⟩ := wedged_contents
  refine ⟨hnum.symm, fun v hv => hbounds v (hnum ▸ hv), fun v hv => ?_, fun id hid => ?_⟩
  · match v with
    | 0 => exact ⟨1, rfl⟩
    | 1 =>
      rw [hintegral] at hv
      cases hv
    | v + 2 => exact ⟨0, rfl⟩
  · rw [hhandler id (hsize ▸ hid)]
    intro cons hcons
    unfold Row.Holds
    rw [vector_wedged]
    exact hrows cons (Array.mem_toList_iff.mpr (Array.mem_of_getElem? hcons))

theorem wedged_implications (x : Point) : wedged.implications.Holds x := by
  obtain ⟨-, -, -, -, himplications, hcliques⟩ := wedged_contents
  refine ⟨?_, ?_⟩
  · rw [himplications]
    nofun
  · rw [hcliques]
    nofun

/-- Settings that solve the relaxations without a dual tolerance. -/
def sharp : Settings (Exact ℚ) :=
  { Settings.default with relaxation := { (Lp.Settings.default : Lp.Settings (Exact ℚ)) with tolDual := 0 } }

theorem sharp_tolerances : sharp.relaxation.Tolerances 1e-9 0 1e-9 :=
  ⟨rfl, rfl, rfl, by norm_num, le_refl _, by norm_num⟩

/-- The simplex method solves the relaxations, and the built-in separator is used. -/
def sharpSolver : Solver (Exact ℚ) (KeyedSimplex (Exact ℚ)) := { Solver.plain sharp with steps := 20 }

/-- The state in which the search starts. -/
def wedgedStart : Search (Exact ℚ) (KeyedSimplex (Exact ℚ)) := .ofModel sharpSolver wedged { settings := sharp.relaxation }

/-- The search ends at the root after one cut; when its first iteration starts, the tree has
a root and the point improves. -/
theorem wedged_found :
    (match run (sharpSolver.guarded KeyedSimplex.ToldInFull) wedgedStart with
      | .ok out s => decide (out.status = .optimal ∧ s.stats.cutsAdded = 1)
      | .error _ _ => false) = true ∧
    (match setUp sharpSolver wedgedStart with
      | .ok _ s => match onTree (SearchTree.createRoot Scalar.negInf) s with
        | .ok _ t => decide (s.domains.hasEmptyDomain = false ∧
            wedged.problem.value #[.fin 1, .fin (1 / 2)] < t.incumbent.cutoff - t.incumbent.tolerance)
        | .error _ _ => false
      | .error _ _ => false) = true := by
  unfold wedgedStart Search.ofModel Propagator.new
  dsimp only
  rw [Handlers.sorted_builtIn wedged_built.arranged.builtIn]
  unfold wedged Model.addLinear Row.of
  rw [wedged_rows.1, wedged_rows.2]
  decide +kernel

theorem wedged_solves : ∃ out t, Returns (run (sharpSolver.guarded KeyedSimplex.ToldInFull)) wedgedStart out t ∧
    out.status = .optimal ∧ t.stats.cutsAdded = 1 := by
  obtain ⟨hfound, -⟩ := wedged_found
  cases hrun : run (sharpSolver.guarded KeyedSimplex.ToldInFull) wedgedStart with
  | error e t =>
    rw [hrun] at hfound
    cases hfound
  | ok out t =>
    rw [hrun] at hfound
    exact ⟨out, t, hrun, of_decide_eq_true hfound⟩

theorem wedged_visits : ∃ s, Visits sharpSolver wedgedStart s ∧ s.incumbent.Improves (wedged.value #[1, 1 / 2]) := by
  obtain ⟨-, hfound⟩ := wedged_found
  split at hfound
  · next s hsetUp =>
    split at hfound
    · next t hcreate =>
      obtain ⟨hempty, himproves⟩ := of_decide_eq_true hfound
      rw [← vector_wedged] at himproves
      exact ⟨t, .root hsetUp hempty hcreate, himproves⟩
    · cases hfound
  · cases hfound

theorem run_loses_nothing_wedged :
    sharpSolver.settings.validate = .ok ⟨⟩ ∧ sharpSolver.plugins.pricers = [] ∧ wedged.Built ∧
    (∀ x, wedged.Feasible x → wedged.implications.Holds x) ∧ TableauIn sharpSolver KeyedSimplex.ToldInFull wedgedStart ∧
    wedged.Feasible #[1, 1 / 2] ∧
    (∃ s, Visits sharpSolver wedgedStart s ∧ s.incumbent.Improves (wedged.value #[1, 1 / 2]) ∧ ∃ n node,
      s.tree.Covers #[1, 1 / 2] (wedged.value #[1, 1 / 2]) n node ∧ (node.status = .open ∨ node.status = .unresolved)) ∧
    ∃ out t, Returns (run sharpSolver) wedgedStart out t ∧ out.status = .optimal ∧ t.stats.cutsAdded = 1 ∧
      ∀ x, wedged.Feasible x → ¬ t.incumbent.Improves (wedged.value x) := by
  have hvalid : sharpSolver.settings.validate = .ok ⟨⟩ := by decide +kernel
  obtain ⟨s, hs, himproves⟩ := wedged_visits
  obtain ⟨out, t, hrun, hoptimal, hcuts⟩ := wedged_solves
  have htableau := tableauIn_of_run hrun
  obtain ⟨hcovered, hended⟩ :=
    run_loses_nothing hvalid rfl wedged_built (fun x _ => wedged_implications x) (KeyedSimplex.honest sharp 20 sharp_tolerances wedged)
      (.empty sharp.relaxation) htableau
  have hplain := restricts_run sharpSolver KeyedSimplex.ToldInFull _ _ _ hrun
  exact ⟨hvalid, rfl, wedged_built, fun x _ => wedged_implications x, htableau, wedged_feasible,
    ⟨s, hs, himproves, hcovered s hs _ wedged_feasible himproves⟩, out, t, hplain, hoptimal, hcuts,
    hended out t hplain (.inl hoptimal)⟩

end Search

end BranchAndCut

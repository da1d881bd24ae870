import BranchAndCut.Proofs.Constraint.Closing
import BranchAndCut.Proofs.Domain.Excursion
import BranchAndCut.Proofs.Model.Assembly
import BranchAndCut.Proofs.Solve.Decided

/-! # Nodes are closed under implications

A search is walked depth first when each node is entered from an ancestor of the active one, or
from the active one itself, so that nothing but its own changes is replayed. On such a walk all
that fixed variables imply is in force wherever propagation has not cut the node off, as long
as the model has set the bounds that its own fixed variables imply. What it has left open there
stays open: no node follows the fixings of the formulation. -/

namespace BranchAndCut

open Domains Deduction

/-! ## The stores at the ancestors -/

namespace Domains

section

variable {K : Type} {C : Domains K → Prop} {d e : Domains K} {above : List NodeId}

/-- The stores at the proper ancestors of the active node. -/
def AtAncestors (C : Domains K → Prop) (d : Domains K) : Prop := ∀ m, 0 < m → m < d.frames.length → C (d.leaveTo m)

variable [Scalar K] {delta : NodeId → List (BoundChange K)} (hC : ∀ {d e}, C d → Agree d e → C e)

include hC

omit hC in
theorem Moves.path (h : d.Moves e) : e.path = d.path := by
  induction h with
  | refl => rfl
  | tail _ hmove ih => exact hmove.path.trans ih

/-- What is requested at a node leaves the ancestors alone. -/
theorem AtAncestors.moves (h : AtAncestors C d) (hde : d.Moves e) : AtAncestors C e := by
  induction hde with
  | refl => exact h
  | @tail e f _ hmove ih =>
    have hlength : f.frames.length = e.frames.length := by rw [← length_path, hmove.path, length_path]
    intro m hpos hm
    rw [hlength] at hm
    refine hC (ih m hpos hm) ?_
    cases hmove with
    | request v kind value reason => exact (leaveTo_tighten hpos hm v kind value reason).symm
    | agree hagree => exact hagree.leaveTo m

/-- A node entered from an active one has it and its ancestors above. -/
theorem AtAncestors.restore (h : AtAncestors C d) (hactive : above <+: d.path) (htop : above = d.path → C d) (node : NodeId) :
    AtAncestors C (d.restore (above ++ [node]) delta).2 := by
  intro m hpos hm
  have hdeep : m ≤ above.length := by
    rw [← length_path, restore_path, List.length_append, List.length_singleton] at hm
    exact Nat.le_of_lt_succ hm
  have hshort := hactive.length_le
  rw [length_path] at hshort
  have hcommon := Nat.le_trans hdeep (le_commonLength hactive (List.prefix_append above [node]))
  refine hC ?_ (leaveTo_restore delta hpos hcommon).symm
  by_cases hlast : m < d.frames.length
  · exact h m hpos hlast
  · obtain rfl : m = d.frames.length := Nat.le_antisymm (Nat.le_trans hdeep hshort) (Nat.le_of_not_lt hlast)
    rw [leaveTo_length (List.ne_nil_of_length_pos hpos)]
    exact htop (hactive.eq_of_length_le (by rw [length_path]; exact hdeep))

omit hC in
/-- A new node is entered by a replay of its own changes. -/
theorem agree_restore_new {node : NodeId} (hactive : above <+: d.path) (hnew : ¬ above ++ [node] <+: d.path) :
    Agree (d.restore (above ++ [node]) delta).2 (Domains.enter delta (true, d.leaveTo above.length) node).2 := by
  have hcommon : commonLength d.path (above ++ [node]) = above.length := by
    refine Nat.le_antisymm (Nat.le_of_not_lt fun hlong => hnew ?_) (le_commonLength hactive (List.prefix_append _ _))
    exact isPrefix_of_le_commonLength (List.prefix_refl _) (by simpa using hlong)
  unfold Domains.restore
  simp only [hcommon, List.drop_left]
  exact agree_clearPending _

end

/-! ## Walks -/

/-- A variable is fixed, and something that it implies is not in force. -/
def LeftOpen (g : ImplicationGraph (Exact ℚ)) (d : Domains (Exact ℚ)) (v : VarId) : Prop :=
  ∃ value, binaryFixing? d v = some value ∧ ∃ i ∈ g.implied v value, ¬ d.Upholds i

theorem closedBut_leftOpen (g : ImplicationGraph (Exact ℚ)) (d : Domains (Exact ℚ)) : ClosedBut g (LeftOpen g d) d := by
  intro v value hv hfix i hi
  by_contra hnot
  exact hv ⟨value, hfix, i, hi, hnot⟩

/-- How far a node has come. -/
inductive Standing where
  | entered
  | propagated
  /-- A conflict was found there. -/
  | cutOff

/-- A node that can be entered next when walking depth first: the node above it is active, and
no conflict was found there, but it is not active itself. -/
structure Next {K : Type} (d : Domains K) (standing : Standing) (above : List NodeId) (node : NodeId) : Prop where
  active : above <+: d.path
  alive : above = d.path → standing = .propagated
  rooted : above = [] → d.path = []
  new : ¬ above ++ [node] <+: d.path

section

variable [Rooted ℚ] {g : ImplicationGraph (Exact ℚ)} {F : VarId → Prop} {t : ℚ} {n : Nat}
  {base d e : Domains (Exact ℚ)} {standing : Standing}

/-- What is known of the store on a walk that starts from a given one. -/
structure Walked (g : ImplicationGraph (Exact ℚ)) (F : VarId → Prop) (t : ℚ) (n : Nat) (base : Domains (Exact ℚ))
    (standing : Standing) (d : Domains (Exact ℚ)) : Prop where
  ancestors : AtAncestors (Upheld g F t n) d
  fresh : standing ≠ .cutOff → Fresh g F t n d
  upheld : standing = .propagated → Upheld g F t n d
  start : d.path = [] → d = base

theorem Walked.cutOff (h : Walked g F t n base standing d) : Walked g F t n base .cutOff d :=
  ⟨h.ancestors, fun hne => absurd rfl hne, nofun, h.start⟩

/-- **Entering a node.** -/
theorem Walked.enter (h : Walked g F t n base standing d) (hbase : base.offPath = base) {above : List NodeId} {node : NodeId}
    (hnext : d.Next standing above node) {delta : NodeId → List (BoundChange (Exact ℚ))}
    (hdelta : ∀ c ∈ delta node, c.var < n) :
    Walked g F t n base .entered (d.restore (above ++ [node]) delta).2 := by
  have habove : Upheld g F t n (d.leaveTo above.length) := by
    by_cases htop : above = d.path
    · have hd := h.upheld (hnext.alive htop)
      by_cases hne : d.frames = []
      · have hpath : d.path = [] := by simp [Domains.path, hne]
        obtain rfl := h.start hpath
        rw [htop, hpath, List.length_nil, leaveTo_zero, hbase]
        exact hd
      · rw [htop, length_path, leaveTo_length hne]
        exact hd
    · have hshort : above.length < d.path.length := by
        refine Nat.lt_of_le_of_ne hnext.active.length_le fun heq => htop (hnext.active.eq_of_length heq)
      rw [length_path] at hshort
      refine h.ancestors above.length (List.length_pos_of_ne_nil fun hnil => ?_) hshort
      exact htop (hnil.trans (hnext.rooted hnil).symm)
  have hfresh : Fresh g F t n (d.restore (above ++ [node]) delta).2 :=
    (habove.enter hdelta).agree (agree_restore_new hnext.active hnext.new).symm
  refine ⟨h.ancestors.restore Upheld.agree hnext.active (fun htop => h.upheld (hnext.alive htop)) node, fun _ => hfresh,
    fun hne => ?_, fun hnil => ?_⟩
  · cases hne
  · rw [restore_path] at hnil
    exact absurd hnil (by simp)

/-- **Propagating** a node where no conflict was found. -/
theorem Walked.propagate (h : Walked g F t n base standing d) (halive : standing ≠ .cutOff) (hentered : d.path ≠ [])
    {σ : Type} {hs : Handlers (Exact ℚ) σ} {r : Registry} (hask : hs.Ask r (· < n))
    (hrequests : ∀ handler ∈ hs.custom, handler.Requests) (hg : g.InRange n) (p : Propagator) (fuel : Nat) (w : σ) :
    Ensures (p.run hs r g fuel) (d, w)
      (fun a s => Walked g F t n base (if a.cutoff then .cutOff else .propagated) s.1) fun _ _ => True := by
  refine ((Propagator.run_closes hask hg (h.fresh halive) p fuel w).and (Propagator.run_moves hrequests p r fuel d w)).mono ?_
    fun _ _ _ => trivial
  rintro a ⟨e, w'⟩ ⟨hcloses, hmoves⟩
  have hpath : e.path = d.path := hmoves.path
  refine ⟨h.ancestors.moves Upheld.agree hmoves, ?_, ?_, fun hnil => absurd (hpath.symm.trans hnil) hentered⟩
  · cases hcut : a.cutoff with
    | true => exact fun hne => absurd rfl hne
    | false => exact fun _ => (hcloses hcut).fresh
  · cases hcut : a.cutoff with
    | true => exact nofun
    | false => exact fun _ => hcloses hcut

end

end Domains

namespace Search

/-- Searches on a walk, depth first, with the standing of the active node. Between the calls all
may change but the domains and the implications. -/
inductive Walk {K σ : Type} [Scalar K] (sv : Solver K σ) (s : Search K σ) : Standing → Search K σ → Prop
  | start : Walk sv s .propagated s
  | aside {standing : Standing} {t u : Search K σ} (h : Walk sv s standing t) (hdomains : u.domains = t.domains)
      (himplications : u.implications = t.implications) : Walk sv s standing u
  | enter {standing : Standing} {t u : Search K σ} (h : Walk sv s standing t) {above : List NodeId} {node : NodeId}
      (hnext : t.domains.Next standing above node) (hdelta : ∀ c ∈ t.tree.delta node, c.var < s.domains.numVars)
      {feasible : Bool} (henter : Returns (enterNode sv (above ++ [node])) t feasible u) :
      Walk sv s (if feasible then .entered else .cutOff) u
  | propagate {standing : Standing} {t u : Search K σ} (h : Walk sv s standing t) (halive : standing ≠ .cutOff)
      (hentered : t.domains.path ≠ []) (hask : t.handlers.Ask t.registry (· < s.domains.numVars))
      (hrequests : ∀ handler ∈ t.handlers.custom, handler.Requests) {alive : Bool}
      (hpropagate : Returns (Search.propagate sv) t alive u) : Walk sv s (if alive then .propagated else .cutOff) u

section

variable {σ : Type} [Rooted ℚ] {sv : Solver (Exact ℚ) σ} {m : Model (Exact ℚ) σ} {s u : Search (Exact ℚ) σ}
  {t : ℚ} {v : VarId}

omit [Rooted ℚ] in
theorem enterNode_implications {K : Type} [Scalar K] {sv : Solver K σ} (path : List NodeId) (s : Search K σ) :
    Ensures (enterNode sv path) s (fun _ t => t.implications = s.implications) fun _ _ => True := by
  refine .bind (.modifyGet (.bind (.modifyGet (.bind_mono ((syncRows_clerical _ _).mono (fun _ _ h => h)
    fun _ _ _ => trivial) fun _ t ht => .bind (.modify (.pure ?_))))))
  exact ht.part Search.implications fun _ _ _ _ _ => rfl

/-- **Propagating** in a search. -/
theorem ensures_propagate_walked {g : ImplicationGraph (Exact ℚ)} {F : VarId → Prop} {n : Nat} {base : Domains (Exact ℚ)}
    {standing : Standing} (h : Walked g F t n base standing s.domains) (halive : standing ≠ .cutOff)
    (hentered : s.domains.path ≠ []) (hask : s.handlers.Ask s.registry (· < n))
    (hrequests : ∀ handler ∈ s.handlers.custom, handler.Requests) (hg : g.InRange n) (hgraph : s.implications = g) :
    Ensures (Search.propagate sv) s (fun alive u => Walked g F t n base (if alive then .propagated else .cutOff) u.domains ∧
      u.implications = s.implications) fun _ _ => True := by
  subst hgraph
  unfold Search.propagate
  refine .bind (.get (.bind (.onPart ((h.propagate halive hentered hask hrequests hg s.propagator sv.steps s.world).mono
    (fun a e he => .bind (.modify (.pure ⟨?_, rfl⟩))) fun _ _ _ => trivial))))
  cases hcut : a.cutoff with
  | true =>
    rw [hcut] at he
    exact he
  | false =>
    rw [hcut] at he
    exact he

/-- **On a walk** the store is as a walk over stores leaves it. -/
theorem Walk.walked {F : VarId → Prop} {standing : Standing} (h : Walk sv s standing u) (hbase : s.domains.offPath = s.domains)
    (hframes : s.domains.frames = []) (hg : s.implications.InRange s.domains.numVars)
    (hs : Upheld s.implications F t s.domains.numVars s.domains) :
    Walked s.implications F t s.domains.numVars s.domains standing u.domains ∧ u.implications = s.implications := by
  induction h with
  | start =>
    refine ⟨⟨fun m _ hm => ?_, fun _ => hs.fresh, fun _ => hs, fun _ => rfl⟩, rfl⟩
    rw [hframes, List.length_nil] at hm
    omega
  | aside _ hdomains himplications ih =>
    rw [hdomains, himplications]
    exact ih
  | @enter standing t' u _ above node hnext hdelta feasible henter ih =>
    obtain ⟨hwalked, himplications⟩ := ih
    obtain ⟨hanswer, hdomains⟩ := (ensures_enterNode _ t').returns henter
    refine ⟨?_, ((enterNode_implications _ t').returns henter).trans himplications⟩
    rw [hdomains]
    have hentered := hwalked.enter hbase hnext hdelta
    cases feasible with
    | true => exact hentered
    | false => exact hentered.cutOff
  | @propagate standing t' u _ halive hentered hask hrequests alive hpropagate ih =>
    obtain ⟨hwalked, himplications⟩ := ih
    obtain ⟨hafter, hgraph⟩ :=
      (ensures_propagate_walked hwalked halive hentered hask hrequests hg himplications).returns hpropagate
    exact ⟨hafter, hgraph.trans himplications⟩

variable (sv) in
theorem ofModel_numVars (hm : m.Assembled) (w : σ) : (ofModel sv m w).domains.numVars = m.problem.numVars := by
  rw [(ofModel_parts sv m w).2.2.2]
  exact Array.size_map.trans (hm.tidy.foldl_asBinary_ranges fun v => List.mem_range.mp).numVars

/-- The domains of a model whose continuous variables have their bounds in order. Whole bounds
that cross do so by more than the tolerance. -/
theorem ofModel_regular (hm : m.Assembled) (w : σ) (htol : sv.settings.feasTol = .fin t) (hpos : 0 < t) (ht : t < 1)
    (hordered : ∀ v < m.problem.numVars, m.problem.isIntegral v = false →
      (m.problem.var v).lower ≤ (m.problem.var v).upper) : Regular t (ofModel sv m w).domains := by
  have hgridded := ofModel_gridded hm w htol
  have hapart : ∀ v < m.problem.numVars,
      Apart (ofModel sv m w).domains.tol ((ofModel sv m w).domains.lb v) ((ofModel sv m w).domains.ub v) := fun v hv => by
    obtain ⟨hlb, hub⟩ := (ofModel_reads sv hm w v).2 hv
    rw [hlb, hub, hgridded.tol]
    cases hintegral : m.problem.isIntegral v with
    | false => exact .inl (hordered v hv hintegral)
    | true =>
      obtain ⟨hlower, hupper⟩ := hm.tidy.whole v hv hintegral
      obtain ⟨hdefLower, hdefUpper⟩ := hm.tidy.defined v hv
      by_cases hcross : (m.problem.var v).upper + .fin t < (m.problem.var v).lower
      · exact .inr hcross
      · exact .inl (Exact.le_of_not_add_lt_whole hlower hupper (Exact.ne_nan_of_defined hdefLower)
          (Exact.ne_nan_of_defined hdefUpper) ht hcross)
  have hreachable : Reachable (ofModel sv m w).domains := by
    have hrounds : ∀ v, (ofModel sv m w).domains.isIntegral v = true →
        Apart (ofModel sv m w).domains.tol ((ofModel sv m w).domains.lb v) ((ofModel sv m w).domains.ub v) :=
      fun v hv => hapart v ((ofModel_reads sv hm w v).1.mp hv).1
    rw [(ofModel_parts sv m w).2.2.2] at hrounds ⊢
    refine .new ?_ (Array.size_map.trans Array.size_map.symm) (Array.size_map.trans Array.size_map.symm) hrounds
    rw [htol, Exact.zero_le_fin]
    exact hpos.le
  refine regular_of_reachable hreachable hgridded.tol ht (fun v hv => hapart v (ofModel_numVars sv hm w ▸ hv))
    fun v hv kind => ?_
  cases kind with
  | lower => exact (hgridded.lower v hv).2
  | upper => exact (hgridded.upper v hv).2

variable (sv) in
theorem ofModel_implications (m : Model (Exact ℚ) σ) (w : σ) : (ofModel sv m w).implications = m.implications :=
  foldl_lockCons Search.implications (fun _ _ _ => rfl) _ _

/-- **On a walk** from the start of a search all that fixed variables imply is in force at each
node once it was propagated, up to the tolerance and the slack, apart from variables that the
formulation has fixed when it did not set the bounds that they imply. -/
theorem walk_closed (hvalid : sv.settings.validate = .ok ⟨⟩) (hlt : sv.settings.feasTol < 1) (hm : m.Assembled) (w : σ)
    (hordered : ∀ v < m.problem.numVars, m.problem.isIntegral v = false →
      (m.problem.var v).lower ≤ (m.problem.var v).upper) (hwalk : Walk sv (ofModel sv m w) .propagated s)
    {value : Bool} (hfix : binaryFixing? s.domains v = some value) :
    (∀ i ∈ m.implications.implied v value, s.domains.Upholds i) ∨ LeftOpen m.implications (ofModel sv m w).domains v := by
  obtain ⟨-, -, hpos, -⟩ := Settings.validate_spec hvalid
  rw [Exact.zero_def] at hpos
  rw [Exact.one_def] at hlt
  obtain ⟨t, htol⟩ : ∃ t, sv.settings.feasTol = .fin t := by
    cases htol : sv.settings.feasTol with
    | fin t => exact ⟨t, rfl⟩
    | nan => exact (htol ▸ hpos).elim
    | negInf => exact (htol ▸ hpos).elim
    | posInf => exact (htol ▸ hlt).elim
  rw [htol, Exact.fin_lt] at hpos hlt
  by_cases hopen : LeftOpen m.implications (ofModel sv m w).domains v
  · exact .inr hopen
  left
  have himplications := ofModel_implications sv m w
  have hlinked := hm.linked
  have hstart := closedBut_leftOpen m.implications (ofModel sv m w).domains
  unfold Model.Linked Model.numVars at hlinked
  rw [← ofModel_numVars sv hm w] at hlinked
  rw [← himplications] at hlinked hstart hopen ⊢
  obtain ⟨hoff, hframes⟩ : (ofModel sv m w).domains.offPath = (ofModel sv m w).domains ∧
      (ofModel sv m w).domains.frames = [] := by
    rw [(ofModel_parts sv m w).2.2.2]
    exact ⟨rfl, rfl⟩
  have hwalked := (hwalk.walked hoff hframes hlinked ⟨ofModel_regular hm w htol hpos hlt hordered, rfl, hstart⟩).1
  exact (hwalked.upheld rfl).closed v value hopen hfix

end

/-- Without constraints there is nothing to ask for. -/
theorem ask_of_idle {K σ : Type} [Scalar K] {hs : Handlers K σ} {r : Registry} (hcustom : hs.custom.size = 0)
    (hidle : r.activeIndex = #[#[], #[]]) (S : VarId → Prop) : hs.Ask r S := by
  refine ⟨fun handler h => ?_, fun w h c hc => ?_⟩
  · rw [Array.eq_empty_of_size_eq_zero hcustom] at h
    exact absurd h (Array.not_mem_empty _)
  · unfold Registry.activeIndices at hc
    rw [hidle] at hc
    rcases h with _ | _ | h <;> cases hc

/-- Whether a step succeeds and its result passes a check. -/
def leadsTo {K σ : Type} (step : SearchM K σ Bool) (check : Search K σ → Bool) (s : Search K σ) : Bool :=
  match step s with
  | .ok true t => check t
  | _ => false

theorem leadsTo_spec {K σ : Type} {step : SearchM K σ Bool} {check : Search K σ → Bool} {s : Search K σ}
    (h : leadsTo step check s = true) : ∃ t, Returns step s true t ∧ check t = true := by
  unfold leadsTo at h
  split at h
  · next t ht => exact ⟨t, ht, h⟩
  · cases h

/-- Three binary variables: the first one sets the second one, and that sets the third one. -/
def switching : Model (Exact ℚ) (Array (Exact ℚ) × Array (Exact ℚ)) :=
  .after (Model.addImplication 1 false ⟨2, .lower, 1⟩) (.after (Model.addImplication 0 true ⟨1, .upper, 0⟩)
    (.after (Model.addVar "z" .binary 0 1 0) (.after (Model.addVar "y" .binary 0 1 0)
      (.after (Model.addVar "x" .binary 0 1 0) (.new "switching")))))

/-- A tree with a child of the root, where the first variable is fixed. -/
def raised : SearchTree (Exact ℚ) :=
  { SearchTree.new .bestBound with
    nodes := (∅ : Std.TreeMap NodeId (Node (Exact ℚ))).insert 1
      { id := 1, changes := [.lower 0 0 1], dualBound := 0, estimate := 0 } }

/-- At the child all that the variable implies is in force. -/
theorem walk_closed_switching : corner.settings.validate = .ok ⟨⟩ ∧ corner.settings.feasTol < 1 ∧ switching.Assembled ∧
    (∀ v < switching.problem.numVars, switching.problem.isIntegral v = false →
      (switching.problem.var v).lower ≤ (switching.problem.var v).upper) ∧
    ∃ s, Walk corner (ofModel corner switching (#[], #[])) .propagated s ∧ s.domains.path = [0, 1] ∧
      binaryFixing? s.domains 0 = some true ∧ ∀ i ∈ switching.implications.implied 0 true, s.domains.Upholds i := by
  have hvalid : corner.settings.validate = .ok ⟨⟩ := by decide +kernel
  have hlt : corner.settings.feasTol < 1 := by decide +kernel
  have hm : switching.Assembled :=
    (((((Model.Assembled.new _).addVar ..).addVar ..).addVar ..).addImplication ..).addImplication ..
  have hordered : ∀ v < switching.problem.numVars, switching.problem.isIntegral v = false →
      (switching.problem.var v).lower ≤ (switching.problem.var v).upper := by decide +kernel
  let start : Search (Exact ℚ) (Array (Exact ℚ) × Array (Exact ℚ)) :=
    { ofModel corner switching (#[], #[]) with tree := raised, propagator := ⟨[0, 1], #[], 0⟩ }
  have hrun : leadsTo (enterNode corner [0]) (fun t =>
      decide (t.domains.path = [0] ∧ t.handlers.custom.size = 0 ∧ t.registry.activeIndex = #[#[], #[]]) &&
      leadsTo (propagate corner) (fun u =>
        decide (u.domains.path = [0] ∧ ∀ c ∈ u.tree.delta 1, c.var < 3) &&
        leadsTo (enterNode corner [0, 1]) (fun v =>
          decide (v.domains.path = [0, 1] ∧ v.handlers.custom.size = 0 ∧ v.registry.activeIndex = #[#[], #[]]) &&
          leadsTo (propagate corner) (fun w =>
            decide (w.domains.path = [0, 1] ∧ binaryFixing? w.domains 0 = some true)) v) u) t) start = true := by
    decide +kernel
  obtain ⟨t, hroot, ht⟩ := leadsTo_spec hrun
  obtain ⟨ht, hrun⟩ := Bool.and_eq_true_iff.mp ht
  obtain ⟨u, hrootDone, hu⟩ := leadsTo_spec hrun
  obtain ⟨hu, hrun⟩ := Bool.and_eq_true_iff.mp hu
  obtain ⟨v, hchild, hv⟩ := leadsTo_spec hrun
  obtain ⟨hv, hrun⟩ := Bool.and_eq_true_iff.mp hv
  obtain ⟨w, hchildDone, hw⟩ := leadsTo_spec hrun
  obtain ⟨hatRoot, hcustom, hidle⟩ := of_decide_eq_true ht
  obtain ⟨hstays, hdelta⟩ := of_decide_eq_true hu
  obtain ⟨hatChild, hcustom', hidle'⟩ := of_decide_eq_true hv
  obtain ⟨hthere, hfix⟩ := of_decide_eq_true hw
  have hrequests : ∀ {hs : Handlers (Exact ℚ) (Array (Exact ℚ) × Array (Exact ℚ))}, hs.custom.size = 0 →
      ∀ handler ∈ hs.custom, handler.Requests := fun hsize handler h => by
    rw [Array.eq_empty_of_size_eq_zero hsize] at h
    exact absurd h (Array.not_mem_empty _)
  have hthree : (ofModel corner switching (#[], #[])).domains.numVars = 3 := by decide +kernel
  have hstart : Walk corner (ofModel corner switching (#[], #[])) .propagated start := .aside .start rfl rfl
  have hbelow : Walk corner (ofModel corner switching (#[], #[])) .entered t :=
    hstart.enter ⟨List.nil_prefix, fun _ => rfl, fun _ => rfl, by decide⟩ (by decide +kernel) hroot
  have hdone : Walk corner (ofModel corner switching (#[], #[])) .propagated u :=
    hbelow.propagate nofun (hatRoot ▸ nofun) (ask_of_idle hcustom hidle _) (hrequests hcustom) hrootDone
  have hnext : u.domains.Next .propagated [0] 1 := by
    refine ⟨?_, fun _ => rfl, nofun, ?_⟩ <;> rw [hstays]
    decide
  have hlower : Walk corner (ofModel corner switching (#[], #[])) .entered v :=
    hdone.enter hnext (hthree ▸ hdelta) hchild
  have hwalk : Walk corner (ofModel corner switching (#[], #[])) .propagated w :=
    hlower.propagate nofun (hatChild ▸ nofun) (ask_of_idle hcustom' hidle' _) (hrequests hcustom') hchildDone
  refine ⟨hvalid, hlt, hm, hordered, w, hwalk, hthere, hfix,
    (walk_closed hvalid hlt hm _ hordered hwalk hfix).resolve_right ?_⟩
  rintro ⟨value, hfixed, -⟩
  have hfree : binaryFixing? (ofModel corner switching (#[], #[])).domains 0 = none := by decide +kernel
  rw [hfree] at hfixed
  cases hfixed

/-- A variable that the formulation fixes, with a bound that it implies left open. -/
def preset : Model (Exact ℚ) (Array (Exact ℚ) × Array (Exact ℚ)) :=
  .after (Model.addImplication 0 true ⟨1, .upper, 0⟩) (.after (Model.addVar "y" .binary 0 1 (-1))
    (.after (Model.addVar "x" .integer 1 1 0) (.new "preset")))

/-- The root is entered and propagated without a conflict, and the bound stays open. -/
theorem preset_left_open : corner.settings.validate = .ok ⟨⟩ ∧ preset.Assembled ∧
    preset.implications.implied 0 true = [⟨1, .upper, 0⟩] ∧
    leadsTo (enterNode corner [0]) (leadsTo (propagate corner) fun u =>
      decide (binaryFixing? u.domains 0 = some true ∧ ¬ u.domains.Upholds ⟨1, .upper, 0⟩))
      (ofModel corner preset (#[], #[])) = true := by
  have hm : preset.Assembled := (((Model.Assembled.new _).addVar ..).addVar ..).addImplication ..
  have hb : preset.Built := (((Model.Built.new _).addVar ..).addVar ..).addImplication ..
  refine ⟨by decide +kernel, hm, by rfl, ?_⟩
  unfold ofModel
  dsimp only
  rw [Propagator.new_builtIn hb.arranged.builtIn]
  decide +kernel

end Search

end BranchAndCut

import BranchAndCut.Proofs.Domain.Replay

/-! # Stores that move through the tree

A point may satisfy the changes of some nodes and not of others. On every level
of the store the local domain encloses the point if the point satisfies the
nodes of that level; the global domain always does. Moving to another node, and
tightening there by what the point satisfies, keep this. -/

namespace BranchAndCut.Domains

variable [Rooted ℚ] {d e : Domains (Exact ℚ)} {p : Point} {F F' : NodeId → Prop}

/-- Whether the point satisfies all nodes of the active path. -/
def Along (F : NodeId → Prop) (d : Domains (Exact ℚ)) : Prop := ∀ f ∈ d.frames, F f.node

omit [Rooted ℚ] in
theorem along_iff : d.Along F ↔ ∀ n ∈ d.path, F n := by
  unfold Along path
  simp

/-- The root is satisfied by every point that matters. -/
def Grounded (F : NodeId → Prop) (d : Domains (Exact ℚ)) : Prop := d.frames.length ≤ 1 → d.Along F

/-- There are as many bounds, locally and globally, as the point has coordinates. -/
def Fits (d : Domains (Exact ℚ)) (p : Point) : Prop := d.lower.size = p.size ∧ d.globalLower.size = p.size

/-- One level of a store that follows a point. -/
structure Within (F : NodeId → Prop) (p : Point) (d : Domains (Exact ℚ)) : Prop where
  tol : 0 ≤ d.tol
  size : d.Fits p
  grid : d.OnGrid
  integral : ∀ v, d.isIntegral v = true → p.IsInt v
  globally : ∀ v, d.EnclosesGlobally p v
  encloses : d.Along F → d.Encloses p
  /-- What was changed at the active node. -/
  changes : d.Along F → ∀ c ∈ d.focusDelta, c.Admits p

theorem Within.agree (h : Within F p d) (hde : Agree d e) : Within F p e := by
  have halong : e.Along F → d.Along F := fun he f hf => he f (hde.frames ▸ hf)
  refine ⟨?_, ?_, h.grid.agree hde, fun v hv => h.integral v ?_, fun v => (h.globally v).agree hde,
    fun he => (h.encloses (halong he)).agree hde, fun he c hc => h.changes (halong he) c ?_⟩
  · rw [hde.eq_with]
    exact h.tol
  · rw [hde.eq_with]
    exact h.size
  · rw [hde.eq_with] at hv
    exact hv
  · unfold focusDelta at hc ⊢
    rw [hde.frames]
    exact hc

theorem within_agree (d e : Domains (Exact ℚ)) (hde : Agree d e) (h : Within F p d) :
    Within F p e := h.agree hde

/-- Fewer nodes are satisfied. -/
theorem Within.mono (h : Within F p d) (hsub : ∀ f ∈ d.frames, F' f.node → F f.node) :
    Within F' p d := by
  have halong : d.Along F' → d.Along F := fun hd f hf => hsub f hf (hd f hf)
  exact ⟨h.tol, h.size, h.grid, h.integral, h.globally, fun hd => h.encloses (halong hd),
    fun hd => h.changes (halong hd)⟩

theorem levels_mono (h : Levels (Within F p) d) (hsub : ∀ f ∈ d.frames, F' f.node → F f.node) :
    Levels (Within F' p) d := by
  intro k hk
  refine (h k hk).mono fun f hf => hsub f ?_
  rw [repeat_leave_frames] at hf
  exact List.mem_of_mem_drop hf

/-! ## Tightening -/

omit [Rooted ℚ] in
theorem along_of_nodes (h : e.frames.map Frame.node = d.frames.map Frame.node) :
    e.Along F ↔ d.Along F := by
  have hmem : ∀ d : Domains (Exact ℚ), d.Along F ↔ ∀ n ∈ d.frames.map Frame.node, F n := by
    intro d
    unfold Along
    simp
  rw [hmem, hmem, h]

/-- Below the root global bounds stay. -/
theorem enclosesGlobally_tighten_deep (hdeep : 2 ≤ d.frames.length) {v : VarId} (w : VarId)
    (kind : BoundKind) (value : Exact ℚ) (reason : Reason) (h : d.EnclosesGlobally p v) :
    (d.tighten w kind value reason).2.EnclosesGlobally p v := by
  unfold Domains.tighten
  rcases d.judge w kind value with ⟨outcome, value'⟩
  cases outcome with
  | applied =>
    have hroot : ¬ d.atRoot = true := by
      simp only [atRoot, decide_eq_true_eq]
      omega
    unfold EnclosesGlobally
    rw [globalLb_record, globalUb_record, if_neg (by simp [hroot]), if_neg (by simp [hroot])]
    exact h
  | _ => exact h

theorem changes_tighten (hp : d.Encloses p) (htol : 0 ≤ d.tol) (hd : ∀ c ∈ d.focusDelta, c.Admits p)
    {v : VarId} {kind : BoundKind} {value : Exact ℚ} (h : kind.Admits value (p.coord v))
    (reason : Reason) : ∀ c ∈ (d.tighten v kind value reason).2.focusDelta, c.Admits p := by
  refine tighten_of_admits (I := fun e => ∀ c ∈ e.focusDelta, c.Admits p) hp htol h reason hd
    fun value' hvalue' c hc => ?_
  unfold focusDelta at hc hd
  rw [record_frames] at hc
  cases hframes : d.frames with
  | nil =>
    rw [hframes] at hc
    cases hc
  | cons f fs =>
    rw [hframes] at hc hd
    rcases List.mem_cons.mp (List.mem_reverse.mp hc) with rfl | hold
    · exact hvalue'
    · exact hd c (List.mem_reverse.mpr hold)

theorem Fits.tighten (h : d.Fits p) (v : VarId) (kind : BoundKind) (value : Exact ℚ) (reason : Reason) :
    (d.tighten v kind value reason).2.Fits p := by
  refine tighten_keeps (I := (Fits · p)) h fun new _ => ⟨?_, ?_⟩
  · rw [record_lower]
    split
    · exact Array.size_setIfInBounds.trans h.1
    · exact h.1
  · rw [record_globalLower]
    split
    · exact Array.size_modify.trans h.2
    · exact h.2

theorem Within.tighten (h : Within F p d) (hroot : d.Grounded F) {v : VarId} {kind : BoundKind}
    {value : Exact ℚ} (hvalue : d.Along F → kind.Admits value (p.coord v)) (reason : Reason) :
    Within F p (d.tighten v kind value reason).2 := by
  have halong := along_of_nodes (F := F) (tighten_nodes (d := d) v kind value reason)
  refine ⟨by rw [tighten_tol]; exact h.tol, h.size.tighten v kind value reason, h.grid.tighten v kind value reason, fun w hw => h.integral w ?_, fun w => ?_,
    fun he => ?_, fun he => ?_⟩
  · rwa [tighten_isIntegral] at hw
  · by_cases hd : d.Along F
    · exact (h.globally w).tighten (h.encloses hd) h.tol (hvalue hd) reason
    · refine enclosesGlobally_tighten_deep ?_ v kind value reason (h.globally w)
      by_contra hshort
      exact hd (hroot (by omega))
  · have hd := halong.mp he
    exact (h.encloses hd).tighten h.tol (hvalue hd) reason
  · have hd := halong.mp he
    exact changes_tighten (h.encloses hd) h.tol (h.changes hd) (hvalue hd) reason

omit [Rooted ℚ] in
theorem grounded_of_nodes (hroot : d.Grounded F)
    (h : e.frames.map Frame.node = d.frames.map Frame.node) : e.Grounded F := by
  intro hlength
  refine (along_of_nodes h).mpr (hroot ?_)
  have hsame := congrArg List.length h
  rw [List.length_map, List.length_map] at hsame
  omega

theorem levels_within_tighten (h : Levels (Within F p) d) (hroot : d.Grounded F) {v : VarId}
    {kind : BoundKind} {value : Exact ℚ} (hvalue : d.Along F → kind.Admits value (p.coord v))
    (reason : Reason) : Levels (Within F p) (d.tighten v kind value reason).2 :=
  h.of_leave within_agree (h.top.tighten hroot hvalue reason)
    (d.tighten_frames_length v kind value reason)
    fun hdeep => leave_tighten hdeep v kind value reason

/-- Requests that the point satisfies where it satisfies the active path. -/
theorem levels_within_tightens (h : Levels (Within F p) d) (hroot : d.Grounded F)
    (ht : d.Tightens {x | x = p ∧ d.Along F} e) : Levels (Within F p) e := by
  induction ht with
  | refl => exact h
  | request reason ht hvalue ih =>
    refine levels_within_tighten ih (grounded_of_nodes hroot ht.nodes) (fun he => ?_) reason
    exact hvalue p ⟨rfl, (along_of_nodes ht.nodes).mp he⟩
  | agree _ hagree ih => exact ih.agree within_agree hagree

/-! ## Moving -/

theorem Within.offPath (h : Within F p d) : Within F p d.offPath :=
  ⟨h.tol, ⟨h.size.2, h.size.2⟩, ⟨fun v hv => ⟨(h.grid.lower v hv).1, (h.grid.lower v hv).1⟩,
    fun v hv => ⟨(h.grid.upper v hv).1, (h.grid.upper v hv).1⟩⟩, h.integral, h.globally,
    fun _ => ⟨fun v => (h.globally v).1, fun v => (h.globally v).2, h.integral⟩, fun _ _ => nofun⟩

theorem Within.push (h : Within F p d) (node : NodeId) : Within F p (d.push node) := by
  have halong : (d.push node).Along F → d.Along F := fun he f hf => he f (List.mem_cons_of_mem _ hf)
  refine ⟨h.tol, h.size, ⟨h.grid.lower, h.grid.upper⟩, h.integral, h.globally, fun he => ?_, fun _ _ => nofun⟩
  have hp := h.encloses (halong he)
  exact ⟨hp.lower, hp.upper, hp.integral⟩

/-- A replay keeps the levels, and is feasible for points that satisfy the path. -/
theorem replay_within (h : Levels (Within F p) d) (hroot : d.Grounded F)
    {cs : List (BoundChange (Exact ℚ))} (hcs : d.Along F → ∀ c ∈ cs, c.Admits p) :
    Levels (Within F p) (d.replay cs).2 ∧ (d.Along F → (d.replay cs).1 = true) := by
  induction cs generalizing d with
  | nil => exact ⟨h, fun _ => rfl⟩
  | cons c cs ih =>
    have hvalue : d.Along F → c.kind.Admits c.new (p.coord c.var) := fun hd => hcs hd c (by simp)
    have hlevels := levels_within_tighten h hroot hvalue c.reason
    have hnodes := tighten_nodes (d := d) c.var c.kind c.new c.reason
    have halong := along_of_nodes (F := F) hnodes
    have hne : d.Along F → (d.tighten c.var c.kind c.new c.reason).1 ≠ .infeasible := fun hd =>
      tighten_ne_infeasible (h.top.encloses hd) h.top.tol (hvalue hd) c.reason
    have hrest := ih hlevels (grounded_of_nodes hroot hnodes)
      fun he c' hc' => hcs (halong.mp he) c' (by simp [hc'])
    rw [halong] at hrest
    unfold replay
    cases ht : d.tighten c.var c.kind c.new c.reason with
    | mk outcome e =>
      rw [ht] at hlevels hne hrest
      cases outcome with
      | infeasible => exact ⟨hlevels, fun hd => (hne hd rfl).elim⟩
      | applied => exact hrest
      | redundant => exact hrest

/-- Entering nodes keeps the levels. A conflict is only met where the point does
not satisfy the path. -/
theorem foldl_enter_within {delta : NodeId → List (BoundChange (Exact ℚ))} {nodes : List NodeId}
    {acc : Bool × Domains (Exact ℚ)} (h : Levels (Within F p) acc.2)
    (hfeasible : acc.2.Along F → acc.1 = true)
    (hdelta : ∀ n ∈ nodes, F n → ∀ c ∈ delta n, c.Admits p)
    (hroot : acc.2.frames = [] → ∀ n, nodes.head? = some n → F n) :
    Levels (Within F p) (nodes.foldl (enter delta) acc).2 ∧
      ((nodes.foldl (enter delta) acc).2.Along F →
        (nodes.foldl (enter delta) acc).1 = true) := by
  induction nodes generalizing acc with
  | nil => exact ⟨h, hfeasible⟩
  | cons node nodes ih =>
    have hpush : Levels (Within F p) (acc.2.push node) := h.push (h.top.push node)
    have hgrounded : (acc.2.push node).Grounded F := by
      intro hlength f hf
      have hnil : acc.2.frames = [] := by
        rw [← List.length_eq_zero_iff]
        simp only [Domains.push, List.length_cons] at hlength
        omega
      rcases List.mem_cons.mp hf with rfl | hf
      · exact hroot hnil _ rfl
      · rw [hnil] at hf
        cases hf
    have hhead : (acc.2.push node).Along F → acc.1 = true ∧ F node := fun he =>
      ⟨hfeasible fun f hf => he f (List.mem_cons_of_mem _ hf), he { node } List.mem_cons_self⟩
    have hadmits : (acc.2.push node).Along F → ∀ c ∈ delta node, c.Admits p := fun he =>
      hdelta node (by simp) (hhead he).2
    obtain ⟨hreplayed, hok⟩ := replay_within hpush hgrounded hadmits
    have hnodes := @enter_nodes _ _ delta acc node
    have hnext : Levels (Within F p) (enter delta acc node).2 ∧
        ((enter delta acc node).2.Along F → (enter delta acc node).1 = true) := by
      have halong := along_of_nodes (F := F) (replay_nodes (d := acc.2.push node) (delta node))
      unfold enter
      dsimp only
      split
      · exact ⟨hreplayed, fun he => hok (halong.mp he)⟩
      · next hstop => exact ⟨hpush, fun he => (hstop (hhead he).1).elim⟩
    refine ih hnext.1 hnext.2 (fun n hn => hdelta n (by simp [hn])) fun hnil => ?_
    rw [hnil] at hnodes
    cases hnodes

/-- **Moving to a node** keeps the levels, and is feasible for every point that
satisfies the path to it. -/
theorem restore_within {target : List NodeId} {delta : NodeId → List (BoundChange (Exact ℚ))}
    (h : Levels (Within F p) d) (hdelta : ∀ n ∈ target, F n → ∀ c ∈ delta n, c.Admits p)
    (hroot : ∀ n, target.head? = some n → F n) :
    Levels (Within F p) (d.restore target delta).2 ∧
      ((d.restore target delta).2.Along F → (d.restore target delta).1 = true) := by
  have hleft : Levels (Within F p) (d.leaveTo (commonLength d.path target)) :=
    h.leaveTo (fun _ _ h => h.offPath) _
  have hstart : (d.leaveTo (commonLength d.path target)).frames = [] →
      ∀ n, (target.drop (commonLength d.path target)).head? = some n → F n := by
    intro hnil n hn
    have hle : commonLength d.path target ≤ d.frames.length := by
      simpa [path] using commonLength_le d.path target
    rw [leaveTo_frames, List.drop_eq_nil_iff] at hnil
    have hzero : commonLength d.path target = 0 := by omega
    rw [hzero, List.drop_zero] at hn
    exact hroot n hn
  have hmoved : Levels (Within F p) (true, d.leaveTo (commonLength d.path target)).2 := hleft
  obtain ⟨hlevels, hfeasible⟩ := foldl_enter_within hmoved (fun _ => rfl)
    (fun n hn => hdelta n (List.mem_of_mem_drop hn)) hstart
  exact ⟨hlevels.agree within_agree rfl, hfeasible⟩

end BranchAndCut.Domains

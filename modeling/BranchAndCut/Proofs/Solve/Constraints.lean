import BranchAndCut.Proofs.Solve.Rows
import BranchAndCut.Proofs.Tree.Named

/-! # Constraints come and go

Local cuts become constraints of the node where they are found, and leave with it; a
switch of the path makes constraints active and inactive. After each of these the
relaxation holds the rows of the active constraints and of the active cuts. -/

namespace BranchAndCut.Search

variable {K σ : Type}

/-! ## The invariant -/

/-- What holds of the parts of a search: the registry follows its path, each linear
constraint is stored at a place of its own, and pool and tree number what they hold. -/
structure Filed (s : Search K σ) : Prop where
  registry : s.registry.Wf
  stored : ∀ id < s.registry.size, s.registry.handler id = 0 →
    s.registry.index id < s.handlers.linear.conss.size
  distinct : ∀ id < s.registry.size, ∀ id' < s.registry.size, s.registry.handler id = 0 →
    s.registry.handler id' = 0 → s.registry.index id = s.registry.index id' → id = id'
  pool : s.pool.Wf
  named : s.tree.Named

/-- Constraints stay filed while records keep their places and no linear constraint is lost. -/
theorem Filed.transfer {s t : Search K σ} (h : s.Filed) (hr : t.registry.Wf)
    (hsize : t.registry.size = s.registry.size) (hhandler : ∀ id, t.registry.handler id = s.registry.handler id)
    (hindex : ∀ id, t.registry.index id = s.registry.index id)
    (hconss : s.handlers.linear.conss.size ≤ t.handlers.linear.conss.size) (hpool : t.pool.Wf)
    (hnamed : t.tree.Named) : t.Filed := by
  refine ⟨hr, fun id hid hh => ?_, fun id hid id' hid' hh hh' hi => ?_, hpool, hnamed⟩
  · rw [hsize] at hid
    rw [hhandler] at hh
    rw [hindex]
    exact Nat.lt_of_lt_of_le (h.stored id hid hh) hconss
  · rw [hsize] at hid hid'
    rw [hhandler] at hh hh'
    rw [hindex, hindex] at hi
    exact h.distinct id hid id' hid' hh hh' hi

theorem Filed.relaxes {s t : Search K σ} (h : s.Filed) (hr : s.Relaxes t) : t.Filed := by
  rw [hr]
  exact ⟨h.registry, h.stored, h.distinct, h.pool, h.named⟩

variable [Scalar K] {sv : Solver K σ} {F : Footing sv} {s t : Search K σ} {active : ConsId → Prop}
  {pending : List Nat}

/-- The relaxation is in line with the search. -/
structure Synced (F : Footing sv) (s : Search K σ) : Prop where
  filed : s.Filed
  carries : Carries F s (s.registry.isActive · = true) []
  admits : s.pool.All F.Admits
  scoring : s.brancher.custom = sv.scoring

theorem Synced.calm (h : Synced F s) : F.Calm s.world := h.carries.calm

/-- Changes that leave the rows of the constraints in the relaxation alone. -/
theorem Carries.transfer (h : Carries F s active pending) (hb : t.handlers.custom = #[])
    (hrows : ∀ id, active id → t.rows id = s.rows id) (hcosts : t.problem.costs = s.problem.costs)
    (hlp : t.lpRows = s.lpRows) (hstale : t.staleCutRows = s.staleCutRows) (hpool : t.pool = s.pool)
    (hworld : t.world = s.world) : Carries F t active pending := by
  obtain ⟨c, hw, ht⟩ := h.tracks
  have hlisted : ∀ id ∈ s.lpRows, t.rows id = s.rows id := fun id hid => hrows id ((h.lists id).mp hid).1
  refine ⟨hb, ⟨c, hworld ▸ hw, ht.columns.trans hcosts.symm, fun id k => ?_, fun id n hn => ?_,
    fun id hid row => ?_, hstale ▸ ht.stale⟩, fun id => ?_⟩
  · rw [ht.constraint, hlp]
    split
    · next hid => rw [hlisted id hid]
    · rfl
  · rw [hlp] at hn
    have hid : id ∈ s.lpRows := by
      rw [Std.TreeMap.mem_iff_isSome_getElem?, hn]
      rfl
    rw [hlisted id hid]
    exact ht.count id n hn
  · rw [hpool, hstale]
    exact ht.cut id hid row
  · rw [hlp, h.lists]
    exact and_congr_right fun hid => by rw [hrows id hid]

/-- Changes outside the constraints and their rows. -/
theorem Synced.transfer (h : Synced F s) (hcosts : t.problem.costs = s.problem.costs)
    (hhandlers : t.handlers = s.handlers) (hregistry : t.registry = s.registry) (hlp : t.lpRows = s.lpRows)
    (hstale : t.staleCutRows = s.staleCutRows) (hpool : t.pool = s.pool) (hworld : t.world = s.world)
    (hscoring : t.brancher.custom = s.brancher.custom)
    (hnamed : t.tree.Named) : Synced F t := by
  have hb : t.handlers.custom = #[] := hhandlers ▸ h.carries.builtIn
  refine ⟨h.filed.transfer (hregistry ▸ h.filed.registry) (by rw [hregistry]) (by simp [hregistry])
    (by simp [hregistry]) (by rw [hhandlers]) (hpool ▸ h.filed.pool) hnamed, ?_, hpool ▸ h.admits,
    hscoring.trans h.scoring⟩
  rw [hregistry]
  refine h.carries.transfer hb (fun id _ => ?_) hcosts hlp hstale hpool hworld
  exact rows_congr h.carries.builtIn hb (by simp [hhandlers]) (by rw [hregistry]) (by rw [hregistry])

/-- Changes of the world that leave alone what the relaxation holds. -/
theorem Synced.world (h : Synced F s) {c : Contents K} (ht : s.Tracks c []) {w : σ} (hw : F.Holds w c) :
    Synced F { s with world := w } :=
  ⟨h.filed.relaxes (.of ..), ⟨h.carries.builtIn, ⟨c, hw, ht.relaxes h.carries.builtIn (.of ..) rfl rfl⟩,
    h.carries.lists.relaxes h.carries.builtIn (.of ..) rfl⟩, h.admits, h.scoring⟩

/-- An action that leaves alone what the relaxation holds. -/
theorem Synced.ensures_onWorld {α : Type} (h : Synced F s) {act : EStateM (Error K) σ α} {post : α → Prop}
    (hact : ∀ c, F.Holds s.world c → s.Tracks c [] →
      Ensures act s.world (fun a w => F.Holds w c ∧ post a) fun _ w => F.Calm w) :
    Ensures (onWorld act) s (fun a t => Synced F t ∧ post a ∧ ∃ w, t = { s with world := w }) (Fails F) := by
  obtain ⟨c, hw, ht⟩ := h.carries.tracks
  exact .onPart ((hact c hw ht).mono (fun _ w hw' => ⟨h.world ht hw'.1, hw'.2, w, rfl⟩) fun _ _ => .inl)

/-! ## A switch of the path -/

/-- **Entering a node** makes the path to it active. -/
theorem Synced.enterNode (h : Synced F s) (path : List NodeId) :
    Ensures (enterNode sv path) s (fun feasible t => Synced F t ∧
      t.registry.path.map Prod.fst = path.reverse ∧ feasible = (s.domains.restore path s.tree.delta).1 ∧
      Relaxes { s with domains := (s.domains.restore path s.tree.delta).2,
                       registry := (s.registry.switchPath path).2 } t) (Fails F) := by
  obtain ⟨hswitch, hpath⟩ := Registry.switchPath_spec h.filed.registry path
  have hrecord : ∀ id, (s.registry.switchPath path).2.record id = s.registry.record id := fun id => by
    unfold Registry.record
    rw [hswitch.records]
  have hhandler : ∀ id, (s.registry.switchPath path).2.handler id = s.registry.handler id := fun id =>
    congrArg ConsRecord.handler (hrecord id)
  have hindex : ∀ id, (s.registry.switchPath path).2.index id = s.registry.index id := fun id =>
    congrArg ConsRecord.index (hrecord id)
  unfold Search.enterNode
  refine .bind (.modifyGet (.bind (.modifyGet ?_)))
  have hmoved : Carries F { s with
      domains := (s.domains.restore path s.tree.delta).2
      registry := (s.registry.switchPath path).2 } (s.registry.isActive · = true) [] := by
    refine h.carries.transfer h.carries.builtIn (fun id _ => ?_) rfl rfl rfl rfl rfl
    refine rows_congr h.carries.builtIn ?_ (fun _ => rfl) (hhandler id) (hindex id)
    exact h.carries.builtIn
  have hfiled : Filed { s with
      domains := (s.domains.restore path s.tree.delta).2
      registry := (s.registry.switchPath path).2 } :=
    h.filed.transfer hswitch.wf (congrArg Array.size hswitch.records) hhandler hindex (Nat.le_refl _)
      h.filed.pool h.filed.named
  refine .bind_mono (hmoved.syncRows _) fun _ t ⟨hr, ht⟩ => .bind (.modify (.pure ?_))
  have hregistry : t.registry = (s.registry.switchPath path).2 := hr.part Search.registry fun _ _ _ _ => rfl
  have hbrancher : t.brancher = s.brancher := hr.part Search.brancher fun _ _ _ _ => rfl
  have hpool : t.pool = s.pool := hr.part Search.pool fun _ _ _ _ => rfl
  refine ⟨⟨(hfiled.relaxes hr).relaxes (.of ..), ?_, ?_, ?_⟩, ?_, rfl, hr.trans (.of ..)⟩
  · refine (ht.congr fun id => ?_).transfer ht.builtIn (fun id _ => rfl) rfl rfl rfl rfl rfl
    rw [hregistry]
    exact hswitch.active id
  · exact hpool ▸ h.admits
  · exact (congrArg Brancher.custom hbrancher).trans h.scoring
  · rw [hregistry]
    exact hpath

/-! ## Local cuts -/

omit [Scalar K] in
/-- The linear constraints that are there keep their rows when one is added. -/
theorem initialRows_addRow (f : LinearFamily K) (name : String) (row : Row K) (isLazy : Bool) {c : Nat}
    (hc : c < f.conss.size) : (f.addRow name row isLazy).2.initialRows c = f.initialRows c := by
  unfold LinearFamily.initialRows LinearFamily.addRow
  dsimp only
  rw [Array.getElem?_push_lt hc, Array.getElem?_eq_getElem hc]

/-- The search with a local cut as a constraint of a node, before its row is added. -/
def withLocalCut (s : Search K σ) (cut : Cut K) (registry : Registry) : Search K σ :=
  let linear := (s.handlers.linear.addRow cut.name cut.row false).2
  { s with handlers := { s.handlers with linear }, registry }.lockCons 0
    (linear.locks s.handlers.linear.conss.size)

/-- A constraint is filed for the local cut. -/
theorem Filed.withLocalCut (h : s.Filed) (cut : Cut K) {scope : Scope} {registry : Registry}
    (hgrown : Registry.Grown s.registry { handler := 0, index := s.handlers.linear.conss.size, scope } registry) :
    (s.withLocalCut cut registry).Filed := by
  have hsize : registry.size = s.registry.size + 1 :=
    (congrArg Array.size hgrown.records).trans (Array.size_push _)
  have hconss : (s.withLocalCut cut registry).handlers.linear.conss.size = s.handlers.linear.conss.size + 1 :=
    Array.size_push _
  refine ⟨hgrown.wf, fun id hid hh => ?_, fun id hid id' hid' hh hh' hi => ?_, h.pool, h.named⟩
  · change id < registry.size at hid
    change registry.handler id = 0 at hh
    show registry.index id < _
    rw [hconss]
    rcases Nat.lt_succ_iff_lt_or_eq.mp (hsize ▸ hid) with hlt | rfl
    · rw [hgrown.handler_old hlt] at hh
      rw [hgrown.index_old hlt]
      exact Nat.lt_succ_of_lt (h.stored id hlt hh)
    · rw [hgrown.index_new]
      exact Nat.lt_succ_self _
  · change id < registry.size at hid
    change id' < registry.size at hid'
    change registry.handler id = 0 at hh
    change registry.handler id' = 0 at hh'
    change registry.index id = registry.index id' at hi
    have hold : ∀ x < s.registry.size, registry.handler x = 0 →
        registry.index x ≠ s.handlers.linear.conss.size := fun x hx hx0 heq => by
      rw [hgrown.handler_old hx] at hx0
      rw [hgrown.index_old hx] at heq
      exact Nat.ne_of_lt (h.stored x hx hx0) heq
    rcases Nat.lt_succ_iff_lt_or_eq.mp (hsize ▸ hid) with hlt | rfl
    · rcases Nat.lt_succ_iff_lt_or_eq.mp (hsize ▸ hid') with hlt' | rfl
      · rw [hgrown.handler_old hlt] at hh
        rw [hgrown.handler_old hlt'] at hh'
        rw [hgrown.index_old hlt, hgrown.index_old hlt'] at hi
        exact h.distinct id hlt id' hlt' hh hh' hi
      · exact (hold id hlt hh (hi.trans hgrown.index_new)).elim
    · rcases Nat.lt_succ_iff_lt_or_eq.mp (hsize ▸ hid') with hlt' | rfl
      · exact (hold id' hlt' hh' (hi.symm.trans hgrown.index_new)).elim
      · rfl

/-- **A local cut** becomes a constraint of a node of the path, and its row is added. -/
theorem Synced.addLocalCut (h : Synced F s) {node : NodeId} (hnode : node ∈ s.registry.path.map Prod.fst)
    (cut : Cut K) : Ensures (addLocalCut sv node cut) s (fun _ t => Synced F t ∧
      ∃ registry, Registry.Grown s.registry
          { handler := 0, index := s.handlers.linear.conss.size, scope := .below node } registry ∧
        (s.withLocalCut cut registry).Relaxes t) (Fails F) := by
  unfold Search.addLocalCut
  refine .bind (.get (.bind (.set ?_)))
  show Ensures (attempt (s.registry.add 0 s.handlers.linear.conss.size (.below node)) >>= _) _ _ _
  by_cases hfamily : 0 < s.registry.active.size
  · obtain ⟨registry, hadd, hgrown⟩ :=
      Registry.add_spec (K := K) h.filed.registry hfamily s.handlers.linear.conss.size (.below node)
    rw [hadd]
    refine .bind (.pure (.bind (.modify ?_)))
    have hfiled := h.filed.withLocalCut cut hgrown
    have hcarries : Carries F (s.withLocalCut cut registry) (s.registry.isActive · = true) [] := by
      refine h.carries.transfer h.carries.builtIn (fun id hid => ?_) rfl rfl rfl rfl rfl
      have hlt := h.filed.registry.mirrors.lt_of_isActive hid
      refine rows_congr h.carries.builtIn ?_ (fun hh => ?_) (hgrown.handler_old hlt) (hgrown.index_old hlt)
      · exact h.carries.builtIn
      · exact initialRows_addRow _ _ _ _ (h.filed.stored id hlt hh)
    refine (hcarries.addConsRows s.registry.size).mono (fun _ t ⟨hr, ht⟩ => ?_) fun _ _ hfail => hfail
    have hbrancher : t.brancher = s.brancher := hr.part Search.brancher fun _ _ _ _ => rfl
    have hpool : t.pool = s.pool := hr.part Search.pool fun _ _ _ _ => rfl
    refine ⟨⟨hfiled.relaxes hr, ht.congr fun id => ?_, hpool ▸ h.admits,
      (congrArg Brancher.custom hbrancher).trans h.scoring⟩, registry, hgrown, hr⟩
    rw [hr.part Search.registry fun _ _ _ _ => rfl]
    refine (hgrown.active id).trans (or_congr_right (and_iff_left_of_imp ?_))
    rintro rfl
    refine .inr ⟨node, ?_, congrArg ConsRecord.scope hgrown.record_new⟩
    rw [hgrown.nodes]
    exact hnode
  · rw [Registry.add_unknown hfamily]
    exact .bind (.throw (.inl h.calm))

/-! ## Nodes that have left the tree -/

/-- The linear constraints in `ids` are deleted. -/
structure Deletes (s : Search K σ) (ids : List ConsId) (t : Search K σ) : Prop where
  frame : Relaxes { s with handlers := { s.handlers with linear := t.handlers.linear } } t
  size : t.handlers.linear.conss.size = s.handlers.linear.conss.size
  kept : ∀ c, (∀ id ∈ ids, s.registry.handler id = 0 → s.registry.index id ≠ c) →
    t.handlers.linear.conss[c]? = s.handlers.linear.conss[c]?
  /-- The coefficients of a constraint stay or are dropped. -/
  rows : ∀ cons ∈ t.handlers.linear.conss, cons ∈ s.handlers.linear.conss ∨ cons.row.coefs = []

omit [Scalar K] in
theorem Deletes.registry {ids : List ConsId} (h : s.Deletes ids t) : t.registry = s.registry :=
  h.frame.part Search.registry fun _ _ _ _ => rfl

omit [Scalar K] in
theorem Deletes.trans {u : Search K σ} {ids ids' : List ConsId} (h : s.Deletes ids t) (h' : t.Deletes ids' u) :
    s.Deletes (ids ++ ids') u := by
  refine ⟨?_, h'.size.trans h.size, fun c hc => ?_, fun cons hcons => (h'.rows cons hcons).elim (h.rows cons) .inr⟩
  · have hframe := h.frame
    have hframe' := h'.frame
    unfold Relaxes at hframe hframe' ⊢
    rw [hframe', hframe]
  · rw [h'.kept c fun id hid => ?_, h.kept c fun id hid => hc id (List.mem_append_left _ hid)]
    rw [h.registry]
    exact hc id (List.mem_append_right _ hid)

omit [Scalar K] in
theorem delete_eq {hs : Handlers K σ} (hb : hs.custom = #[]) (w : σ) (h : HandlerId) (c : Nat) :
    hs.delete w h c = ({ hs with linear := if h = 0 then hs.linear.delete c else hs.linear }, w) := by
  unfold Handlers.delete
  rcases hs.which_of_builtIn hb h with ⟨hh, hwhich⟩ | ⟨hh, hwhich⟩
  · rw [if_pos hh, hwhich]
  · rw [if_neg hh]
    rcases hwhich with hwhich | hwhich <;> rw [hwhich]

/-- The rows of deleted constraints leave the relaxation with them. -/
theorem Carries.deleteAll (hf : s.Filed) (h : Carries F s active []) {ids : List ConsId}
    (hids : ∀ id ∈ ids, id < s.registry.size) (hactive : ∀ id, active id → id < s.registry.size) :
    Ensures (ids.forM fun id => do
      Search.removeConsRows sv id
      modify fun s =>
        let (handlers, world) := s.handlers.delete s.world (s.registry.handler id) (s.registry.index id)
        { s with handlers, world }) s
      (fun _ t => t.Filed ∧ Carries F t (fun x => active x ∧ x ∉ ids) [] ∧ s.Deletes ids t) (Fails F) := by
  induction ids generalizing s active with
  | nil => exact .pure ⟨hf, h.congr fun x => by simp, .refl _, rfl, fun _ _ => rfl, fun _ => .inl⟩
  | cons id ids ih =>
    refine .bind (.bind_mono (h.removeConsRows id) fun _ t ⟨hr, ht⟩ => .modify ?_)
    have hfiled := hf.relaxes hr
    have hregistry : t.registry = s.registry := hr.part Search.registry fun _ _ _ _ => rfl
    have hhandlers : t.handlers = s.handlers := hr.part Search.handlers fun _ _ _ _ => rfl
    dsimp only
    rw [delete_eq ht.builtIn]
    dsimp only
    generalize hlinear : (if t.registry.handler id = 0 then t.handlers.linear.delete (t.registry.index id)
      else t.handlers.linear) = linear
    have hsize : linear.conss.size = t.handlers.linear.conss.size := by
      rw [← hlinear]
      split
      · exact Array.size_modify
      · rfl
    have hkept : ∀ c, (t.registry.handler id = 0 → t.registry.index id ≠ c) →
        linear.conss[c]? = t.handlers.linear.conss[c]? := fun c hc => by
      rw [← hlinear]
      split
      · next hh =>
        show (t.handlers.linear.conss.modify _ _)[c]? = _
        rw [Array.getElem?_modify, if_neg (hc hh)]
      · rfl
    have hrows : ∀ cons ∈ linear.conss, cons ∈ t.handlers.linear.conss ∨ cons.row.coefs = [] := fun cons hcons => by
      rw [← hlinear] at hcons
      split at hcons
      · obtain ⟨c, hc⟩ := Array.mem_iff_getElem?.mp hcons
        change (t.handlers.linear.conss.modify _ _)[c]? = _ at hc
        rw [Array.getElem?_modify] at hc
        split at hc
        · obtain ⟨old, -, rfl⟩ := Option.map_eq_some_iff.mp hc
          exact .inr rfl
        · exact .inl (Array.mem_of_getElem? hc)
      · exact .inl hcons
    have hlt : id < t.registry.size := hregistry ▸ hids id List.mem_cons_self
    have hdeleted : Carries F { t with handlers := { t.handlers with linear } } (fun x => active x ∧ x ≠ id) [] := by
      refine ht.transfer ht.builtIn (fun x hx => ?_) rfl rfl rfl rfl rfl
      refine rows_congr ht.builtIn ?_ (fun hh => ?_) rfl rfl
      · exact ht.builtIn
      · have hx' : x < t.registry.size := hregistry ▸ hactive x hx.1
        unfold LinearFamily.initialRows
        dsimp only
        rw [hkept _ fun hid hi => hx.2 (hfiled.distinct id hlt x hx' hid hh hi).symm]
    have hfiled' : Filed { t with handlers := { t.handlers with linear } } :=
      hfiled.transfer hfiled.registry rfl (fun _ => rfl) (fun _ => rfl) (Nat.le_of_eq hsize.symm) hfiled.pool
        hfiled.named
    have hfirst : s.Deletes [id] { t with handlers := { t.handlers with linear } } := by
      refine ⟨?_, hsize.trans (by rw [hhandlers]), fun c hc => ?_, hhandlers ▸ hrows⟩
      · unfold Relaxes at hr ⊢
        rw [hr]
      · refine (hkept c ?_).trans (by rw [hhandlers])
        rw [hregistry]
        exact hc id List.mem_cons_self
    refine (ih hfiled' hdeleted (fun x hx => ?_) fun x hx => ?_).mono ?_ fun _ _ hfail => hfail
    · exact hregistry ▸ hids x (List.mem_cons_of_mem _ hx)
    · exact hregistry ▸ hactive x hx.1
    · rintro _ u ⟨huf, huc, hud⟩
      refine ⟨huf, huc.congr fun x => ?_, hfirst.trans hud⟩
      rw [List.mem_cons, not_or, and_assoc]

/-- The constraints in `ids`, which belong to nodes that have left the tree, are deleted. -/
structure Frees (s : Search K σ) (ids : List ConsId) (t : Search K σ) : Prop where
  registry : Registry.Shrunk s.registry ids t.registry
  deletes : Deletes { s with registry := t.registry, tree := t.tree } ids t
  nodes : t.tree = { s.tree with released := t.tree.released }
  known : ∀ id ∈ ids, id < s.registry.size

omit [Scalar K] in
theorem Frees.trans {u : Search K σ} {ids ids' : List ConsId} (h : s.Frees ids t) (h' : t.Frees ids' u) :
    s.Frees (ids ++ ids') u := by
  refine ⟨h.registry.append h'.registry, ⟨?_, h'.deletes.size.trans h.deletes.size, fun c hc => ?_,
    fun cons hcons => (h'.deletes.rows cons hcons).elim (h.deletes.rows cons) .inr⟩, ?_, fun id hid => ?_⟩
  · have hframe := h.deletes.frame
    have hframe' := h'.deletes.frame
    unfold Relaxes at hframe hframe' ⊢
    rw [hframe', hframe]
  · refine (h'.deletes.kept c fun id hid => ?_).trans (h.deletes.kept c fun id hid => ?_)
    · exact hc id (List.mem_append_right _ hid)
    · have hfirst := hc id (List.mem_append_left _ hid)
      dsimp only at hfirst ⊢
      rw [h'.registry.handler, h'.registry.index] at hfirst
      exact hfirst
  · rw [h'.nodes, h.nodes]
  · rcases List.mem_append.mp hid with hid | hid
    · exact h.known id hid
    · exact h.registry.size ▸ h'.known id hid

/-- **Releasing a node** deletes its constraints and removes their rows. -/
theorem Synced.releaseNode (h : Synced F s) (node : NodeId) :
    Ensures (releaseNode sv node) s (fun _ t => Synced F t ∧ ∃ ids, s.Frees ids t) (Fails F) := by
  obtain ⟨hwf, hshrunk⟩ := Registry.releaseNode_spec h.filed.registry node
  unfold Search.releaseNode
  refine .bind (.modifyGet ?_)
  have hmoved : Carries F { s with registry := (s.registry.releaseNode node).2 }
      (s.registry.isActive · = true) [] := by
    refine h.carries.transfer h.carries.builtIn (fun id _ => ?_) rfl rfl rfl rfl rfl
    refine rows_congr h.carries.builtIn ?_ (fun _ => rfl) (hshrunk.handler id) (hshrunk.index id)
    exact h.carries.builtIn
  have hfiled : Filed { s with registry := (s.registry.releaseNode node).2 } :=
    h.filed.transfer hwf hshrunk.size hshrunk.handler hshrunk.index (Nat.le_refl _) h.filed.pool h.filed.named
  refine (hmoved.deleteAll hfiled (fun id hid => ?_) fun id hid => ?_).mono ?_ fun _ _ hfail => hfail
  · exact hshrunk.size ▸ (h.filed.registry.listed (Array.mem_toList_iff.mp hid)).1
  · exact hshrunk.size ▸ h.filed.registry.mirrors.lt_of_isActive hid
  · rintro _ t ⟨htf, htc, htd⟩
    have htree : t.tree = s.tree := htd.frame.part Search.tree fun _ _ _ _ => rfl
    have hregistry : t.registry = (s.registry.releaseNode node).2 := htd.registry
    have hbrancher : t.brancher = s.brancher := htd.frame.part Search.brancher fun _ _ _ _ => rfl
    have hpool : t.pool = s.pool := htd.frame.part Search.pool fun _ _ _ _ => rfl
    refine ⟨⟨htf, htc.congr fun id => ?_, hpool ▸ h.admits, (congrArg Brancher.custom hbrancher).trans h.scoring⟩,
      _, hregistry ▸ hshrunk, ?_, ?_, fun id hid => (h.filed.registry.listed (Array.mem_toList_iff.mp hid)).1⟩
    · rw [hregistry]
      exact hshrunk.active id
    · rw [hregistry, htree]
      exact htd
    · rw [htree]

/-- **Releasing the nodes** that have left the tree. -/
theorem Synced.releaseNodes (h : Synced F s) :
    Ensures (releaseNodes sv) s (fun _ t => Synced F t ∧ ∃ ids, s.Frees ids t) (Fails F) := by
  unfold Search.releaseNodes
  refine .bind (.modifyGet ?_)
  have hstart : Synced F { s with tree := (s.tree.drainReleased).2 } :=
    h.transfer rfl rfl rfl rfl rfl rfl rfl rfl h.filed.named
  have hfrees : s.Frees [] { s with tree := (s.tree.drainReleased).2 } :=
    ⟨.nil _, ⟨.refl _, rfl, fun _ _ => rfl, fun _ => .inl⟩, rfl, nofun⟩
  refine (Ensures.forM (I := fun _ t => Synced F t ∧ ∃ ids, s.Frees ids t) ?_ ⟨hstart, [], hfrees⟩).mono
    (fun _ _ ht => ht) fun _ _ hfail => hfail
  rintro node _ t ⟨ht, ids, hids⟩
  refine (ht.releaseNode node).mono ?_ fun _ _ hfail => hfail
  rintro _ u ⟨hu, ids', hids'⟩
  exact ⟨hu, _, hids.trans hids'⟩

end BranchAndCut.Search

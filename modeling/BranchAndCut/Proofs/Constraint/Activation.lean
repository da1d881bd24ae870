import BranchAndCut.Proofs.Constraint.PathSwitch

/-! # Every registry follows its path

Registering and deleting constraints, releasing the nodes that have left the tree and
switching the path all keep the invariant of the registry. So after any operations a
constraint is active exactly while it is not deleted and valid on the path of the last
switch. -/

namespace BranchAndCut.Registry

variable {r s : Registry} {id : ConsId} {h : HandlerId} {node : NodeId}

/-! ## Adding -/

theorem new_wf (numHandlers : Nat) : (new numHandlers).Wf := by
  have hlist : ∀ h, (new numHandlers).activeOf h = #[] := fun h => getD_replicate numHandlers h #[]
  have hnode : ∀ node, (new numHandlers).ofNode node = #[] := fun node => by simp [ofNode, new]
  refine ⟨⟨by simp [new], rfl, nofun, fun h p x => ?_, fun h => ?_⟩, fun {n id} hid => ?_, nofun, fun n => ?_,
    nofun, trivial⟩
  · rw [hlist]
    exact ⟨fun hp => by simp at hp, fun hx => absurd hx.1.1 (Nat.not_lt_zero x)⟩
  · rw [hlist, Array.map_empty]
    exact getD_replicate numHandlers h #[]
  · rw [hnode] at hid
    exact absurd hid (Array.not_mem_empty id)
  · rw [hnode]
    exact List.nodup_nil

/-- Making room for a family. -/
theorem addHandler_wf (hr : r.Wf) : r.addHandler.2.Wf := by
  have hlist : ∀ h, r.addHandler.2.activeOf h = r.activeOf h := fun h => by
    show (r.active.push #[]).getD h #[] = r.active.getD h #[]
    rw [getD_push]
    split
    · next hh => rw [getD_of_size_le _ _ (Nat.le_of_eq hh.symm)]
    · rfl
  refine ⟨⟨?_, hr.mirrors.posSize, fun id hid => ?_, fun h => ?_, fun h => ?_⟩, hr.listed, hr.waiting,
    hr.nodup, hr.follows, hr.noted.transfer (fun id hid => ⟨hid, rfl⟩) fun n hn id hid hs => ⟨hid, hs⟩⟩
  · show (r.activeIndex.push #[]).size = (r.active.push #[]).size
    rw [Array.size_push, Array.size_push, hr.mirrors.indexSize]
  · show r.handler id < (r.active.push #[]).size
    rw [Array.size_push]
    exact Nat.lt_succ_of_lt (hr.mirrors.family id hid)
  · rw [hlist]
    exact hr.mirrors.placed h
  · rw [hlist]
    show (r.activeIndex.push #[]).getD h #[] = _
    have hindices := hr.mirrors.indices h
    rw [getD_push]
    split
    · next hh =>
      rw [getD_of_size_le _ _ (Nat.le_of_eq hh.symm)] at hindices
      exact hindices
    · exact hindices

/-- The registry with one more record. -/
def file (r : Registry) (rec : ConsRecord) : Registry :=
  { r with records := r.records.push rec, activePos := r.activePos.push none }

theorem record_file (r : Registry) (rec : ConsRecord) (x : ConsId) :
    (r.file rec).record x = if x = r.size then rec else r.record x := getD_push _ _ _ _

theorem size_file (r : Registry) (rec : ConsRecord) : (r.file rec).size = r.size + 1 :=
  Array.size_push rec

theorem pos?_file (r : Registry) (rec : ConsRecord) (x : ConsId) : (r.file rec).pos? x = r.pos? x := by
  show (r.activePos.push none).getD x none = r.activePos.getD x none
  rw [getD_push]
  split
  · next hx => rw [getD_of_size_le _ _ (Nat.le_of_eq hx.symm)]
  · rfl

theorem isActive_file (r : Registry) (rec : ConsRecord) (x : ConsId) :
    (r.file rec).isActive x = true ↔ r.isActive x = true := by
  unfold isActive
  rw [pos?_file]

theorem Mirrors.file (hr : r.Mirrors) {rec : ConsRecord} (hfamily : rec.handler < r.active.size) :
    (r.file rec).Mirrors := by
  have hold : ∀ x < r.size, (r.file rec).record x = r.record x := fun x hx => by
    rw [record_file, if_neg (Nat.ne_of_lt hx)]
  refine ⟨hr.indexSize, ?_, fun x hx => ?_, fun h p x => ?_, fun h => ?_⟩
  · show (r.activePos.push none).size = (r.records.push rec).size
    rw [Array.size_push, Array.size_push, hr.posSize]
    rfl
  · rw [size_file] at hx
    show ((r.file rec).record x).handler < r.active.size
    rw [record_file]
    split
    · exact hfamily
    · next hne => exact hr.family x (Nat.lt_of_le_of_ne (Nat.le_of_lt_succ hx) hne)
  · refine (hr.placed h p x).trans ?_
    rw [pos?_file]
    refine and_congr_left fun hp => ?_
    have hlt := hr.lt hp
    dsimp only
    unfold handler
    rw [hold x hlt, size_file]
    exact and_congr_left fun _ => ⟨Nat.lt_succ_of_lt, fun _ => hlt⟩
  · rw [show (r.file rec).activeIndex = r.activeIndex from rfl, hr.indices,
      show (r.file rec).activeOf h = r.activeOf h from rfl]
    refine Array.map_congr_left fun x hx => ?_
    have hlt := hr.lt_of_isActive (hr.mem_activeOf.mp hx).1
    unfold index
    rw [hold x hlt]

/-- The record of a new constraint. -/
theorem add_record {K : Type} {index : Nat} {scope : Scope}
    (hadd : (r.add h index scope : Except (Error K) (ConsId × Registry)) = .ok (id, s)) :
    s.record id = { handler := h, index, scope } := by
  have hactivate : ∀ (r : Registry) id, (r.activate id).records = r.records := fun r id => by
    unfold activate
    split <;> rfl
  have hpush : (r.records.push { handler := h, index, scope }).getD r.records.size ⟨0, 0, .everywhere, true⟩ =
      { handler := h, index, scope } := by
    rw [getD_push, if_pos rfl]
  unfold add at hadd
  split at hadd
  · cases hadd
  unfold record
  cases scope with
  | everywhere =>
    cases hadd
    rw [hactivate]
    exact hpush
  | below node =>
    dsimp only at hadd
    split at hadd
    · cases hadd
      rw [hactivate]
      exact hpush
    · cases hadd
      exact hpush

/-- A registry with one more record, whose constraint is active if it is on the path. -/
structure Grown (r : Registry) (rec : ConsRecord) (s : Registry) : Prop where
  wf : s.Wf
  records : s.records = r.records.push rec
  nodes : s.path.map Prod.fst = r.path.map Prod.fst
  families : s.active.size = r.active.size
  ofNode : ∀ node, s.ofNode node =
    if rec.scope = .below node then (r.ofNode node).push r.size else r.ofNode node
  active : ∀ id, s.isActive id = true ↔ r.isActive id = true ∨ id = r.size ∧ s.OnPath id

theorem Grown.record_new {rec : ConsRecord} (hg : Grown r rec s) : s.record r.size = rec := by
  unfold record
  rw [hg.records, getD_push]
  exact if_pos rfl

theorem Grown.record_old {rec : ConsRecord} (hg : Grown r rec s) (hid : id < r.size) :
    s.record id = r.record id := by
  unfold record
  rw [hg.records, getD_push]
  exact if_neg (Nat.ne_of_lt hid)

theorem Grown.handler_old {rec : ConsRecord} (hg : Grown r rec s) (hid : id < r.size) :
    s.handler id = r.handler id := congrArg ConsRecord.handler (hg.record_old hid)

theorem Grown.index_old {rec : ConsRecord} (hg : Grown r rec s) (hid : id < r.size) :
    s.index id = r.index id := congrArg ConsRecord.index (hg.record_old hid)

theorem Grown.index_new {rec : ConsRecord} (hg : Grown r rec s) : s.index r.size = rec.index :=
  congrArg ConsRecord.index hg.record_new

theorem Grown.of_mirrors (hr : r.Wf) {rec : ConsRecord} (hrec : rec.deleted = false)
    (hmirrors : s.Mirrors) (hrecords : s.records = r.records.push rec)
    (hnodes : s.path.map Prod.fst = r.path.map Prod.fst) (hfamilies : s.active.size = r.active.size)
    (hofNode : ∀ node, s.ofNode node =
      if rec.scope = .below node then (r.ofNode node).push r.size else r.ofNode node)
    (hactive : ∀ id, s.isActive id = true ↔ r.isActive id = true ∨ id = r.size ∧ s.OnPath id)
    (hnoted : s.Noted s.path) : Grown r rec s := by
  have hsize : s.size = r.size + 1 := (congrArg Array.size hrecords).trans (Array.size_push rec)
  have hnew : s.record r.size = rec := by
    unfold record
    rw [hrecords, getD_push]
    exact if_pos rfl
  have hold : ∀ x < r.size, s.record x = r.record x := fun x hx => by
    unfold record
    rw [hrecords, getD_push]
    exact if_neg (Nat.ne_of_lt hx)
  refine ⟨⟨hmirrors, fun {n id} hid => ?_, fun {n id} hid hscope hdeleted => ?_, fun n => ?_,
    fun id hid => ?_, hnoted⟩, hrecords, hnodes, hfamilies, hofNode, hactive⟩
  · have hcase : id ∈ r.ofNode n ∨ id = r.size ∧ rec.scope = .below n := by
      rw [hofNode] at hid
      split at hid
      · next hscope => exact (Array.mem_push.mp hid).imp_right fun heq => ⟨heq, hscope⟩
      · exact .inl hid
    rw [hsize]
    rcases hcase with hid | ⟨rfl, hscope⟩
    · obtain ⟨hlt, hscope⟩ := hr.listed hid
      exact ⟨Nat.lt_succ_of_lt hlt, by rw [hold id hlt, hscope]⟩
    · exact ⟨Nat.lt_succ_self _, by rw [hnew, hscope]⟩
  · rw [hofNode]
    unfold isDeleted at hdeleted
    rcases Nat.lt_succ_iff_lt_or_eq.mp (hsize ▸ hid) with hlt | rfl
    · rw [hold id hlt] at hscope hdeleted
      have hmem := hr.waiting hlt hscope hdeleted
      split
      · exact Array.mem_push_of_mem _ hmem
      · exact hmem
    · rw [hnew] at hscope
      rw [if_pos hscope]
      exact Array.mem_push_self
  · rw [hofNode]
    split
    · rw [Array.toList_push]
      refine List.nodup_append.mpr ⟨hr.nodup n, List.nodup_singleton _, fun a ha b hb => ?_⟩
      rw [List.mem_singleton.mp hb]
      exact Nat.ne_of_lt (hr.listed (Array.mem_toList_iff.mp ha)).1
    · exact hr.nodup n
  · rw [hactive]
    rcases Nat.lt_succ_iff_lt_or_eq.mp (hsize ▸ hid) with hlt | rfl
    · have hfollows := hr.follows id hlt
      unfold isDeleted OnPath at hfollows ⊢
      rw [hold id hlt, hnodes, ← hfollows]
      exact or_iff_left fun h => Nat.ne_of_lt hlt h.1
    · have hnot : ¬ r.isActive r.size = true := fun h =>
        Nat.lt_irrefl _ (hr.mirrors.lt_of_isActive h)
      unfold isDeleted
      rw [hnew]
      simp [hnot, hrec]

theorem noteEntered_nodes (id : ConsId) (node : NodeId) (path : List (NodeId × Array ConsId)) :
    (noteEntered id node path).map Prod.fst = path.map Prod.fst := by
  induction path with
  | nil => rfl
  | cons e rest ih =>
    unfold noteEntered
    split
    · rfl
    · rw [List.map_cons, List.map_cons, ih]

/-- A constraint that becomes active at a node of the path is noted there. -/
theorem Noted.noteEntered {path : List (NodeId × Array ConsId)} (hr : r.Noted path)
    (hnode : node ∈ path.map Prod.fst) (hnew : id < s.size ∧ (s.record id).scope = .below node)
    (hscope : ∀ x < r.size, x < s.size ∧ (s.record x).scope = (r.record x).scope)
    (hactive : ∀ x, s.isActive x = true → x ≠ id →
      r.isActive x = true ∧ (s.record x).scope = (r.record x).scope) :
    s.Noted (noteEntered id node path) := by
  have hother : ∀ n ≠ node, ∀ x, s.isActive x = true → (s.record x).scope = .below n →
      r.isActive x = true ∧ (r.record x).scope = .below n := by
    intro n hn x hx hbelow
    have hne : x ≠ id := by
      rintro rfl
      rw [hnew.2] at hbelow
      cases hbelow
      exact hn rfl
    obtain ⟨hx', hsame⟩ := hactive x hx hne
    exact ⟨hx', hsame ▸ hbelow⟩
  induction path with
  | nil => cases hnode
  | cons e rest ih =>
    obtain ⟨n, entered⟩ := e
    obtain ⟨hrest, hentered, hnoted⟩ := hr
    have hentered' : ∀ x ∈ entered, n ∉ rest.map Prod.fst ∧ x < s.size ∧ (s.record x).scope = .below n := by
      intro x hx
      obtain ⟨hn, hlt, hbelow⟩ := hentered x hx
      exact ⟨hn, (hscope x hlt).1, (hscope x hlt).2.trans hbelow⟩
    have hany : (rest.any fun e => e.1 == node) = true ↔ node ∈ rest.map Prod.fst := by
      simp only [List.any_eq_true, beq_iff_eq, List.mem_map]
    unfold Registry.noteEntered
    split
    · next heq =>
      obtain ⟨rfl, hlast⟩ := heq
      have hn : n ∉ rest.map Prod.fst := fun hmem => by
        rw [hany.mpr hmem] at hlast
        cases hlast
      refine ⟨hrest.transfer hscope fun m hm => hother m ?_, fun x hx => ?_, fun _ x hx hbelow => ?_⟩
      · rintro rfl
        exact hn hm
      · rcases Array.mem_push.mp hx with hx | rfl
        · exact hentered' x hx
        · exact ⟨hn, hnew⟩
      · by_cases hxid : x = id
        · rw [hxid]
          exact Array.mem_push_self
        · obtain ⟨hx', hsame⟩ := hactive x hx hxid
          exact Array.mem_push_of_mem _ (hnoted hn x hx' (hsame ▸ hbelow))
    · next hne =>
      have hmem : node ∈ rest.map Prod.fst := by
        rcases List.mem_cons.mp hnode with heq | hmem
        · by_contra hnot
          refine hne ⟨heq.symm, ?_⟩
          rw [Bool.not_eq_true', ← Bool.not_eq_true, hany]
          exact hnot
        · exact hmem
      refine ⟨ih hrest hmem, fun x hx => ?_, fun hn x hx hbelow => ?_⟩
      · rw [noteEntered_nodes]
        exact hentered' x hx
      · rw [noteEntered_nodes] at hn
        obtain ⟨hx', hbelow'⟩ := hother n (fun heq => hn (heq ▸ hmem)) x hx hbelow
        exact hnoted hn x hx' hbelow'

section Filed

variable {rec : ConsRecord}

theorem record_file_new : (r.file rec).record r.size = rec := by rw [record_file, if_pos rfl]

theorem record_file_old {x : ConsId} (hx : x < r.size) : (r.file rec).record x = r.record x := by
  rw [record_file, if_neg (Nat.ne_of_lt hx)]

theorem lt_size_file : r.size < (r.file rec).size := size_file r rec ▸ Nat.lt_succ_self _

/-- What was there keeps its scope. -/
theorem scope_file {x : ConsId} (hx : x < r.size) :
    x < (r.file rec).size ∧ ((r.file rec).record x).scope = (r.record x).scope := by
  rw [record_file_old hx]
  exact ⟨Nat.lt_trans hx lt_size_file, rfl⟩

variable (hr : r.Wf) (hfile : (r.file rec).Mirrors) (hdeleted : rec.deleted = false)

include hr hfile hdeleted

/-- What is valid everywhere becomes active at once. -/
theorem grown_everywhere (hscope : rec.scope = .everywhere) : Grown r rec ((r.file rec).activate r.size) := by
  obtain ⟨hlisted, hactive⟩ := activate_spec hfile lt_size_file
  have hactive' : ∀ x, ((r.file rec).activate r.size).isActive x = true ↔ r.isActive x = true ∨ x = r.size := fun x => by
    rw [hactive, isActive_file]
  refine .of_mirrors hr hdeleted hlisted.mirrors hlisted.records (congrArg _ hlisted.path) hlisted.families
    (fun n => ?_) (fun x => (hactive' x).trans (or_congr_right ?_)) ?_
  · rw [hlisted.ofNode, hscope, if_neg nofun]
    rfl
  · refine ⟨fun hx => ⟨hx, .inl ?_⟩, And.left⟩
    rw [hx, hlisted.record, record_file_new, hscope]
  · rw [hlisted.path]
    refine hr.noted.transfer (fun x hx => ?_) fun n hn x hx hbelow => ?_
    · rw [hlisted.size, hlisted.record]
      exact scope_file hx
    · rw [hlisted.record] at hbelow
      rcases (hactive' x).mp hx with hx | rfl
      · rw [record_file_old (hr.mirrors.lt_of_isActive hx)] at hbelow
        exact ⟨hx, hbelow⟩
      · rw [record_file_new, hscope] at hbelow
        cases hbelow

omit hr hfile hdeleted in
theorem getD_insert_ofNode (hscope : rec.scope = .below node) (n : NodeId) :
    (r.byNode.insert node ((r.ofNode node).push r.size)).getD n #[] =
      if rec.scope = .below n then (r.ofNode n).push r.size else r.ofNode n := by
  rw [Std.TreeMap.getD_insert, hscope]
  by_cases hn : node = n
  · subst hn
    rw [if_pos (Nat.compare_eq_eq.mpr rfl), if_pos rfl]
  · rw [if_neg fun heq => hn (Nat.compare_eq_eq.mp heq), if_neg fun heq => hn (Scope.below.inj heq)]
    rfl

/-- What is local to a node on the path becomes active and is noted there. -/
theorem grown_onPath (hscope : rec.scope = .below node) (hnode : node ∈ r.path.map Prod.fst) :
    Grown r rec (Registry.activate { r.file rec with
      byNode := r.byNode.insert node ((r.ofNode node).push r.size)
      path := noteEntered r.size node r.path } r.size) := by
  obtain ⟨hlisted, hactive⟩ := activate_spec (r := { r.file rec with
      byNode := r.byNode.insert node ((r.ofNode node).push r.size)
      path := noteEntered r.size node r.path })
    ⟨hfile.indexSize, hfile.posSize, hfile.family, hfile.placed, hfile.indices⟩ lt_size_file
  have hactive' : ∀ x, (Registry.activate { r.file rec with
      byNode := r.byNode.insert node ((r.ofNode node).push r.size)
      path := noteEntered r.size node r.path } r.size).isActive x = true ↔
      r.isActive x = true ∨ x = r.size := fun x => (hactive x).trans (or_congr_left (isActive_file r rec x))
  refine .of_mirrors hr hdeleted hlisted.mirrors hlisted.records ?_ hlisted.families
    (fun n => (hlisted.ofNode n).trans (getD_insert_ofNode hscope n)) (fun x => (hactive' x).trans (or_congr_right ?_)) ?_
  · rw [hlisted.path]
    exact noteEntered_nodes _ _ _
  · refine ⟨fun hx => ⟨hx, .inr ⟨node, ?_, ?_⟩⟩, And.left⟩
    · rw [hlisted.path]
      exact (noteEntered_nodes r.size node r.path).symm ▸ hnode
    · rw [hx, hlisted.record]
      exact (congrArg _ record_file_new).trans hscope
  · rw [hlisted.path]
    refine hr.noted.noteEntered hnode ?_ (fun x hx => ?_) fun x hx hne => ?_
    · rw [hlisted.size, hlisted.record]
      exact ⟨lt_size_file, (congrArg _ record_file_new).trans hscope⟩
    · rw [hlisted.size, hlisted.record]
      exact scope_file hx
    · have hx' := ((hactive' x).mp hx).resolve_right hne
      rw [hlisted.record]
      exact ⟨hx', (scope_file (hr.mirrors.lt_of_isActive hx')).2⟩

/-- What is local to another node waits there. -/
theorem grown_offPath (hscope : rec.scope = .below node) (hnode : node ∉ r.path.map Prod.fst) :
    Grown r rec { r.file rec with byNode := r.byNode.insert node ((r.ofNode node).push r.size) } := by
  refine .of_mirrors hr hdeleted ⟨hfile.indexSize, hfile.posSize, hfile.family, hfile.placed, hfile.indices⟩ rfl rfl rfl
    (getD_insert_ofNode hscope) (fun x => (isActive_file r rec x).trans ?_) ?_
  · refine (or_iff_left ?_).symm
    rintro ⟨rfl, heverywhere | ⟨n, hn, hbelow⟩⟩
    · change ((r.file rec).record r.size).scope = .everywhere at heverywhere
      rw [record_file_new, hscope] at heverywhere
      cases heverywhere
    · change ((r.file rec).record r.size).scope = .below n at hbelow
      rw [record_file_new, hscope] at hbelow
      cases hbelow
      exact hnode hn
  · refine hr.noted.transfer (fun x => scope_file) fun n hn x hx hbelow => ?_
    have hx' := (isActive_file r rec x).mp hx
    change ((r.file rec).record x).scope = .below n at hbelow
    rw [record_file_old (hr.mirrors.lt_of_isActive hx')] at hbelow
    exact ⟨hx', hbelow⟩

end Filed

/-- **Registering a constraint** of a known family. -/
theorem add_spec {K : Type} (hr : r.Wf) (hh : h < r.active.size) (index : Nat) (scope : Scope) :
    ∃ s, (r.add h index scope : Except (Error K) (ConsId × Registry)) = .ok (r.size, s) ∧
      Grown r { handler := h, index, scope } s := by
  have hfile : (r.file { handler := h, index, scope }).Mirrors := hr.mirrors.file hh
  unfold add
  rw [if_neg (Nat.not_le_of_lt hh)]
  cases scope with
  | everywhere => exact ⟨_, rfl, grown_everywhere hr hfile rfl rfl⟩
  | below node =>
    have hany : (r.path.any fun e => e.1 == node) = true ↔ node ∈ r.path.map Prod.fst := by
      simp only [List.any_eq_true, beq_iff_eq, List.mem_map]
    by_cases hnode : node ∈ r.path.map Prod.fst
    · refine ⟨_, ?_, grown_onPath hr hfile rfl rfl hnode⟩
      dsimp only
      rw [if_pos (hany.mpr hnode)]
      rfl
    · refine ⟨_, ?_, grown_offPath hr hfile rfl rfl hnode⟩
      dsimp only
      rw [if_neg fun h => hnode (hany.mp h)]
      rfl

/-- A constraint of an unknown family is refused. -/
theorem add_unknown {K : Type} (hh : ¬ h < r.active.size) (index : Nat) (scope : Scope) :
    (r.add h index scope : Except (Error K) (ConsId × Registry)) = throw (.internal (.unknownHandler h)) :=
  if_pos (Nat.not_lt.mp hh)

/-! ## Deleting -/

/-- A registry in which the constraints in `gone` are deleted. -/
structure Shrunk (r : Registry) (gone : List ConsId) (s : Registry) : Prop where
  size : s.size = r.size
  path : s.path = r.path
  families : s.active.size = r.active.size
  record : ∀ id, s.record id = { r.record id with deleted := r.isDeleted id || gone.contains id }
  active : ∀ id, s.isActive id = true ↔ r.isActive id = true ∧ id ∉ gone

theorem Shrunk.nil (r : Registry) : Shrunk r [] r := by
  refine ⟨rfl, rfl, rfl, fun id => ?_, by simp⟩
  rw [List.contains_nil, Bool.or_false]
  rfl

theorem Shrunk.append {u : Registry} {gone gone' : List ConsId} (hs : Shrunk r gone s)
    (hu : Shrunk s gone' u) : Shrunk r (gone ++ gone') u := by
  refine ⟨hu.size.trans hs.size, hu.path.trans hs.path, hu.families.trans hs.families, fun id => ?_,
    fun id => ?_⟩
  · have hdeleted : s.isDeleted id = (r.isDeleted id || gone.contains id) :=
      congrArg ConsRecord.deleted (hs.record id)
    rw [hu.record, hdeleted, hs.record, List.contains_append, Bool.or_assoc]
  · rw [hu.active, hs.active, List.mem_append, not_or, and_assoc]

theorem Shrunk.handler {gone : List ConsId} (hs : Shrunk r gone s) (id : ConsId) :
    s.handler id = r.handler id := by
  unfold Registry.handler
  rw [hs.record]

theorem Shrunk.index {gone : List ConsId} (hs : Shrunk r gone s) (id : ConsId) :
    s.index id = r.index id := by
  unfold Registry.index
  rw [hs.record]

/-- Deleted constraints are neither active nor waiting. -/
theorem Shrunk.wf {gone : List ConsId} (hr : r.Wf) (hs : Shrunk r gone s) (hmirrors : s.Mirrors)
    (hofNode : ∀ n, s.ofNode n = r.ofNode n ∨
      s.ofNode n = #[] ∧ ∀ id ∈ r.ofNode n, id ∈ gone) : s.Wf := by
  have hscope : ∀ id, (s.record id).scope = (r.record id).scope := fun id => by rw [hs.record]
  have hdeleted : ∀ id, s.isDeleted id = (r.isDeleted id || gone.contains id) := fun id =>
    congrArg ConsRecord.deleted (hs.record id)
  refine ⟨hmirrors, fun {n id} hid => ?_, fun {n id} hid hbelow hd => ?_, fun n => ?_, fun id hid => ?_, ?_⟩
  · rw [hs.size, hscope]
    rcases hofNode n with hsame | ⟨hnone, -⟩
    · exact hr.listed (hsame ▸ hid)
    · rw [hnone] at hid
      exact absurd hid (Array.not_mem_empty id)
  · rw [hs.size] at hid
    rw [hscope] at hbelow
    rw [hdeleted, Bool.or_eq_false_iff] at hd
    have hmem := hr.waiting hid hbelow hd.1
    rcases hofNode n with hsame | ⟨-, hgone⟩
    · rw [hsame]
      exact hmem
    · have hcontains := List.contains_iff_mem.mpr (hgone id hmem)
      rw [hd.2] at hcontains
      cases hcontains
  · rcases hofNode n with hsame | ⟨hnone, -⟩
    · rw [hsame]
      exact hr.nodup n
    · rw [hnone]
      exact List.nodup_nil
  · rw [hs.size] at hid
    have hfollows := hr.follows id hid
    unfold OnPath at hfollows ⊢
    rw [hs.active, hfollows, hdeleted, hscope, hs.path, Bool.or_eq_false_iff, ← Bool.not_eq_true (gone.contains id),
      List.contains_iff_mem]
    tauto
  · rw [hs.path]
    refine hr.noted.transfer (fun id hid => ⟨hs.size ▸ hid, hscope id⟩) fun n hn id hid hbelow => ?_
    rw [hscope] at hbelow
    exact ⟨((hs.active id).mp hid).1, hbelow⟩

/-- **Deleting a constraint.** -/
theorem delete_spec (hr : r.Wf) (id : ConsId) :
    (r.delete id).Wf ∧ Shrunk r [id] (r.delete id) ∧ (r.delete id).byNode = r.byNode := by
  obtain ⟨-, hlisted, hactive⟩ := deactivate_spec hr.mirrors id
  have hrecord : ∀ x, (r.delete id).record x =
      { r.record x with deleted := r.isDeleted x || [id].contains x } := by
    intro x
    show ((r.deactivate id).2.records.modify id fun c => { c with deleted := true }).getD x _ = _
    rw [hlisted.records, getD_modify]
    show (if x = id ∧ id < r.size then { r.record x with deleted := true } else r.record x) = _
    by_cases hx : x = id
    · subst hx
      by_cases hlt : x < r.size
      · simp [hlt]
      · have hnone : r.record x = ⟨0, 0, .everywhere, true⟩ := getD_of_size_le _ _ (Nat.not_lt.mp hlt)
        simp [hlt, hnone, isDeleted]
    · simp [hx, isDeleted]
  have hshrunk : Shrunk r [id] (r.delete id) := by
    refine ⟨?_, hlisted.path, hlisted.families, hrecord, fun x => (hactive x).trans (by simp)⟩
    show ((r.deactivate id).2.records.modify id _).size = r.records.size
    rw [Array.size_modify, hlisted.records]
  refine ⟨hshrunk.wf hr ?_ fun n => .inl ?_, hshrunk, hlisted.byNode⟩
  · have hm := hlisted.mirrors
    refine ⟨hm.indexSize, hm.posSize.trans (hlisted.size.trans hshrunk.size.symm), fun x hx => ?_,
      fun h p x => (hm.placed h p x).trans ?_, fun h => (hm.indices h).trans ?_⟩
    · have hfamily := hr.mirrors.family x (hshrunk.size ▸ hx)
      show ((r.delete id).record x).handler < (r.deactivate id).2.active.size
      rw [hrecord, hlisted.families]
      exact hfamily
    · refine and_congr_left fun _ => ?_
      dsimp only
      unfold handler
      rw [hrecord, hlisted.record, hlisted.size, hshrunk.size]
    · refine Array.map_congr_left fun x _ => ?_
      unfold index
      rw [hrecord, hlisted.record]
  · exact hlisted.ofNode n

theorem delete_byNode (r : Registry) (byNode : Std.TreeMap NodeId (Array ConsId)) (id : ConsId) :
    Registry.delete { r with byNode } id = { r.delete id with byNode } := by
  have hpos : Registry.pos? { r with byNode } id = r.pos? id := rfl
  unfold delete deactivate
  rw [hpos]
  cases r.pos? id with
  | none => rfl
  | some pos =>
    dsimp only [activeOf, handler, record]
    split <;> rfl

theorem foldl_delete_byNode (r : Registry) (byNode : Std.TreeMap NodeId (Array ConsId))
    (ids : List ConsId) :
    ids.foldl delete { r with byNode } = { ids.foldl delete r with byNode } := by
  induction ids generalizing r with
  | nil => rfl
  | cons id ids ih => rw [List.foldl_cons, List.foldl_cons, delete_byNode, ih]

theorem foldl_delete (hr : r.Wf) (ids : List ConsId) :
    (ids.foldl delete r).Wf ∧ Shrunk r ids (ids.foldl delete r) ∧
      (ids.foldl delete r).byNode = r.byNode := by
  induction ids generalizing r with
  | nil => exact ⟨hr, .nil r, rfl⟩
  | cons id ids ih =>
    obtain ⟨hwf, hs, hbyNode⟩ := delete_spec hr id
    obtain ⟨hwf', hs', hbyNode'⟩ := ih hwf
    exact ⟨hwf', hs.append hs', hbyNode'.trans hbyNode⟩

/-- **Releasing a node** deletes its local constraints. -/
theorem releaseNode_spec (hr : r.Wf) (node : NodeId) :
    (r.releaseNode node).2.Wf ∧ Shrunk r (r.releaseNode node).1 (r.releaseNode node).2 := by
  obtain ⟨hwf, hs, hbyNode⟩ := foldl_delete hr (r.ofNode node).toList
  have heq : (r.releaseNode node).2 =
      { (r.ofNode node).toList.foldl delete r with byNode := r.byNode.erase node } :=
    foldl_delete_byNode r _ _
  have hshrunk : Shrunk r (r.ofNode node).toList (r.releaseNode node).2 := by
    rw [heq]
    exact ⟨hs.size, hs.path, hs.families, hs.record, hs.active⟩
  refine ⟨hshrunk.wf hr ?_ fun n => ?_, hshrunk⟩
  · rw [heq]
    exact ⟨hwf.mirrors.indexSize, hwf.mirrors.posSize, hwf.mirrors.family, hwf.mirrors.placed,
      hwf.mirrors.indices⟩
  · have hread : (r.releaseNode node).2.ofNode n = (r.byNode.erase node).getD n #[] := by rw [heq]; rfl
    rw [hread, Std.TreeMap.getD_erase]
    split
    · next hn =>
      obtain rfl := Nat.compare_eq_eq.mp hn
      exact .inr ⟨rfl, fun id hid => Array.mem_toList_iff.mpr hid⟩
    · exact .inl rfl

/-! ## Runs -/

/-- What is asked of a registry. -/
inductive Op where
  | add (handler : HandlerId) (index : Nat) (scope : Scope)
  | addHandler
  | delete (id : ConsId)
  | releaseNode (node : NodeId)
  | switchPath (target : List NodeId)

/-- The registry after an operation. A constraint of an unknown family is refused. -/
def step (r : Registry) : Op → Registry
  | .add handler index scope =>
    match (r.add handler index scope : Except (Error Unit) (ConsId × Registry)) with
    | .ok (_, r) => r
    | .error _ => r
  | .addHandler => r.addHandler.2
  | .delete id => r.delete id
  | .releaseNode node => (r.releaseNode node).2
  | .switchPath target => (r.switchPath target).2

/-- The path after an operation. -/
def Op.target (path : List NodeId) : Op → List NodeId
  | .switchPath target => target
  | _ => path

/-- **Every operation keeps the invariant,** and only a switch changes the path. -/
theorem step_wf (hr : r.Wf) (op : Op) :
    (r.step op).Wf ∧ (r.step op).path.map Prod.fst =
      (op.target (r.path.map Prod.fst).reverse).reverse := by
  cases op with
  | add h index scope =>
    unfold step Op.target
    rw [List.reverse_reverse]
    dsimp only
    by_cases hh : h < r.active.size
    · obtain ⟨s, heq, hs⟩ := @add_spec r h Unit hr hh index scope
      rw [heq]
      exact ⟨hs.wf, hs.nodes⟩
    · rw [add_unknown hh]
      exact ⟨hr, rfl⟩
  | addHandler => exact ⟨addHandler_wf hr, (List.reverse_reverse _).symm⟩
  | delete id =>
    obtain ⟨hwf, hs, -⟩ := delete_spec hr id
    exact ⟨hwf, (congrArg _ hs.path).trans (List.reverse_reverse _).symm⟩
  | releaseNode node =>
    obtain ⟨hwf, hs⟩ := releaseNode_spec hr node
    exact ⟨hwf, (congrArg _ hs.path).trans (List.reverse_reverse _).symm⟩
  | switchPath target =>
    obtain ⟨hs, hpath⟩ := switchPath_spec hr target
    exact ⟨hs.wf, hpath⟩

/-! ## The history of the calls -/

/-- What the calls tell, kept without lists of active constraints. -/
structure Ledger where
  families : Nat
  /-- The constraints that were accepted, in the order of their calls. -/
  records : List ConsRecord := []
  /-- The last target. -/
  path : List NodeId := []

namespace Ledger

/-- A call is entered: a constraint of a known family is filed, and a call that takes back
constraints marks them. -/
def step (l : Ledger) : Op → Ledger
  | .add handler index scope =>
    if handler < l.families then { l with records := l.records ++ [{ handler, index, scope }] } else l
  | .addHandler => { l with families := l.families + 1 }
  | .delete id => { l with records := l.records.modify id fun c => { c with deleted := true } }
  | .releaseNode node =>
    { l with records := l.records.map fun c => { c with deleted := c.deleted || c.scope == .below node } }
  | .switchPath target => { l with path := target }

/-- The ledger of the calls from the start. -/
def of (numHandlers : Nat) (ops : List Op) : Ledger := ops.foldl step { families := numHandlers }

/-- A constraint has not been taken back and is valid everywhere or below a node of the path. -/
def InForce (l : Ledger) (c : ConsRecord) : Prop :=
  c.deleted = false ∧ (c.scope = .everywhere ∨ ∃ node ∈ l.path, c.scope = .below node)

instance (l : Ledger) (c : ConsRecord) : Decidable (l.InForce c) := inferInstanceAs (Decidable (_ ∧ _))

end Ledger

/-- A registry in which the ledger can be read. -/
structure Keeps (r : Registry) (l : Ledger) : Prop where
  wf : r.Wf
  families : r.active.size = l.families
  records : r.records.toList = l.records
  path : r.path.map Prod.fst = l.path.reverse

theorem new_keeps (numHandlers : Nat) : (new numHandlers).Keeps { families := numHandlers } :=
  ⟨new_wf numHandlers, Array.size_replicate, rfl, rfl⟩

/-- Records are told apart by their numbers. -/
theorem records_eq {records : List ConsRecord} (hsize : r.size = records.length)
    (hrecord : ∀ id (hid : id < records.length), r.record id = records[id]) : r.records.toList = records := by
  refine List.ext_getElem ?_ fun id hid hid' => ?_
  · rw [Array.length_toList]
    exact hsize
  · rw [← hrecord id hid', Array.getElem_toList]
    unfold record
    rw [Array.getD_eq_getD_getElem?, Array.getElem?_eq_getElem, Option.getD_some]

theorem Keeps.size {l : Ledger} (h : r.Keeps l) : r.size = l.records.length := by
  rw [← h.records, Array.length_toList]
  rfl

theorem Keeps.record {l : Ledger} (h : r.Keeps l) (hid : id < l.records.length) : r.record id = l.records[id] := by
  have hlt : id < r.records.size := Nat.lt_of_lt_of_eq hid h.size.symm
  simp only [← h.records, Array.getElem_toList]
  unfold Registry.record
  rw [Array.getD_eq_getD_getElem?, Array.getElem?_eq_getElem hlt, Option.getD_some]

theorem Keeps.getElem? {l : Ledger} (h : r.Keeps l) (id : ConsId) {c : ConsRecord} :
    l.records[id]? = some c ↔ id < r.size ∧ r.record id = c := by
  rw [List.getElem?_eq_some_iff, h.size]
  constructor
  · rintro ⟨hid, rfl⟩
    exact ⟨hid, h.record hid⟩
  · rintro ⟨hid, rfl⟩
    exact ⟨hid, (h.record hid).symm⟩

/-- **Every call** does to the registry what it does to the ledger. -/
theorem Keeps.step {l : Ledger} (h : r.Keeps l) (op : Op) : (r.step op).Keeps (l.step op) := by
  obtain ⟨hwf, hpath⟩ := step_wf h.wf op
  rw [h.path, List.reverse_reverse] at hpath
  cases op with
  | add handler index scope =>
    unfold Registry.step Ledger.step at *
    dsimp only at *
    by_cases hh : handler < l.families
    · obtain ⟨s, heq, hs⟩ := @add_spec r handler Unit h.wf (h.families ▸ hh) index scope
      rw [heq] at hwf hpath ⊢
      rw [if_pos hh]
      refine ⟨hwf, hs.families.trans h.families, ?_, hpath⟩
      rw [hs.records, Array.toList_push, h.records]
    · rw [add_unknown (h.families ▸ hh), if_neg hh]
      exact h
  | addHandler => exact ⟨hwf, (Array.size_push _).trans (congrArg (· + 1) h.families), h.records, hpath⟩
  | delete id =>
    obtain ⟨-, hs, -⟩ := delete_spec h.wf id
    refine ⟨hwf, hs.families.trans h.families, records_eq ?_ fun x hx => ?_, hpath⟩
    · exact hs.size.trans (h.size.trans (List.length_modify ..).symm)
    · have hx' : x < l.records.length := Nat.lt_of_lt_of_eq hx (List.length_modify ..)
      refine (hs.record x).trans ?_
      unfold isDeleted
      rw [h.record hx']
      refine Eq.trans ?_ (List.getElem_modify ..).symm
      by_cases heq : id = x
      · subst heq
        rw [if_pos rfl, List.contains_cons, beq_self_eq_true, Bool.true_or, Bool.or_true]
      · rw [if_neg heq, List.contains_cons, List.contains_nil, Bool.or_false, beq_eq_false_iff_ne.mpr (Ne.symm heq),
          Bool.or_false]
  | releaseNode node =>
    obtain ⟨-, hs⟩ := releaseNode_spec h.wf node
    refine ⟨hwf, hs.families.trans h.families, records_eq ?_ fun x hx => ?_, hpath⟩
    · exact hs.size.trans (h.size.trans (List.length_map ..).symm)
    · have hx' : x < l.records.length := Nat.lt_of_lt_of_eq hx (List.length_map ..)
      have hread := h.record hx'
      refine (hs.record x).trans ?_
      refine Eq.trans ?_ (List.getElem_map ..).symm
      unfold isDeleted
      rw [hread]
      dsimp only
      congr 1
      cases hdeleted : l.records[x].deleted with
      | true => rfl
      | false =>
        -- what is not deleted waits at its node
        rw [Bool.false_or, Bool.false_or, Bool.eq_iff_iff, List.contains_iff_mem, beq_iff_eq, ← hread]
        constructor
        · exact fun hmem => (h.wf.listed (Array.mem_toList_iff.mp hmem)).2
        · refine fun hscope => Array.mem_toList_iff.mpr (h.wf.waiting (h.size.symm ▸ hx') hscope ?_)
          unfold isDeleted
          rw [hread, hdeleted]
  | switchPath target =>
    obtain ⟨hs, -⟩ := switchPath_spec h.wf target
    refine ⟨hwf, hs.families.trans h.families, ?_, hpath⟩
    exact (congrArg Array.toList hs.records).trans h.records

theorem keeps_of (numHandlers : Nat) (ops : List Op) :
    (ops.foldl step (new numHandlers)).Keeps (.of numHandlers ops) := by
  have hrun : ∀ (ops : List Op) (r : Registry) (l : Ledger), r.Keeps l →
      (ops.foldl Registry.step r).Keeps (ops.foldl Ledger.step l) := by
    intro ops
    induction ops with
    | nil => exact fun _ _ h => h
    | cons op ops ih => exact fun r l h => ih _ _ (h.step op)
  exact hrun ops _ _ (new_keeps numHandlers)

/-- What is active of a family can be read in the ledger. -/
theorem Keeps.mem_activeOf {l : Ledger} (hl : r.Keeps l) :
    id ∈ r.activeOf h ↔ ∃ c, l.records[id]? = some c ∧ c.handler = h ∧ l.InForce c := by
  have hr : r.Wf := hl.wf
  have hmem : ∀ node, node ∈ r.path.map Prod.fst ↔ node ∈ l.path := fun node => by
    rw [hl.path]
    exact List.mem_reverse
  rw [hr.mirrors.mem_activeOf]
  constructor
  · rintro ⟨hid, hh⟩
    have hlt := hr.mirrors.lt_of_isActive hid
    obtain ⟨hdeleted, hscope⟩ := (hr.follows id hlt).mp hid
    exact ⟨_, (hl.getElem? id).mpr ⟨hlt, rfl⟩, hh, hdeleted, hscope.imp_right fun ⟨n, hn, hs⟩ => ⟨n, (hmem n).mp hn, hs⟩⟩
  · rintro ⟨c, hc, hh, hdeleted, hscope⟩
    obtain ⟨hlt, rfl⟩ := (hl.getElem? id).mp hc
    exact ⟨(hr.follows id hlt).mpr
      ⟨hdeleted, hscope.imp_right fun ⟨n, hn, hs⟩ => ⟨n, (hmem n).mpr hn, hs⟩⟩, hh⟩

/-- The indices of the active constraints are those that they were added with. -/
theorem Keeps.activeIndices_eq {l : Ledger} (hl : r.Keeps l) :
    (r.activeIndices h).map some = (r.activeOf h).toList.map fun id => (l.records[id]?).map ConsRecord.index := by
  have hindices : r.activeIndices h = (r.activeOf h).toList.map r.index := by
    show (r.activeIndex.getD h #[]).toList = _
    rw [hl.wf.mirrors.indices, Array.toList_map]
  rw [hindices, List.map_map]
  refine List.map_congr_left fun id hid => ?_
  obtain ⟨c, hc, -⟩ := hl.mem_activeOf.mp (Array.mem_toList_iff.mp hid)
  rw [hc]
  exact congrArg (fun c => some (ConsRecord.index c)) ((hl.getElem? id).mp hc).2

/-- **Activation follows the path.** After any calls the registry has the families and the
constraints of their ledger, under the numbers of their order, and the next one gets the next
number. The list of a family holds, each once, the constraints of the family that no call has
taken back and that are valid everywhere or below a node of the last target; the indices that
they were added with stand next to it in the same order. And a switch to any target reports
what changes. -/
theorem active_iff_onPath (numHandlers : Nat) (ops : List Op) :
    let r := ops.foldl step (new numHandlers)
    let l := Ledger.of numHandlers ops
    r.active.size = l.families ∧ r.records.toList = l.records ∧ r.path.map Prod.fst = l.path.reverse ∧
    (∀ handler index scope,
      (r.add handler index scope : Except (Error Unit) (ConsId × Registry)).map Prod.fst =
        if handler < l.families then .ok l.records.length else .error (.internal (.unknownHandler handler))) ∧
    (∀ h, (r.activeOf h).toList.Nodup ∧ ∀ id, id ∈ r.activeOf h ↔
      ∃ c, l.records[id]? = some c ∧ c.handler = h ∧ l.InForce c) ∧
    (∀ h, (r.activeIndices h).map some = (r.activeOf h).toList.map fun id => (l.records[id]?).map ConsRecord.index) ∧
    (∀ id, r.isActive id = true ↔ ∃ h, id ∈ r.activeOf h) ∧
    ∀ target,
      let delta := (r.switchPath target).1
      delta.deactivated.Nodup ∧ delta.activated.Nodup ∧
      (∀ id ∈ delta.deactivated, r.isActive id = true) ∧
      (∀ id ∈ delta.activated, ¬ (r.isActive id = true ∧ id ∉ delta.deactivated)) ∧
      ∀ id, (r.switchPath target).2.isActive id = true ↔
        (r.isActive id = true ∧ id ∉ delta.deactivated) ∨ id ∈ delta.activated := by
  intro r l
  have h : r.Keeps l := keeps_of numHandlers ops
  have hr : r.Wf := h.wf
  refine ⟨h.families, h.records, h.path, fun handler index scope => ?_, fun h' => ⟨hr.mirrors.nodup h', fun _ => h.mem_activeOf⟩,
    fun _ => h.activeIndices_eq, fun id => ?_, fun target => ?_⟩
  · by_cases hh : handler < l.families
    · obtain ⟨s, heq, -⟩ := @add_spec r handler Unit hr (h.families ▸ hh) index scope
      rw [heq, if_pos hh, ← h.size]
      rfl
    · rw [add_unknown (h.families ▸ hh), if_neg hh]
      rfl
  · constructor
    · exact fun hid => ⟨r.handler id, hr.mirrors.mem_activeOf.mpr ⟨hid, rfl⟩⟩
    · rintro ⟨h', hid⟩
      exact (hr.mirrors.mem_activeOf.mp hid).1
  · obtain ⟨hs, -⟩ := switchPath_spec hr target
    exact ⟨hs.deactivated.1, hs.activated.1, hs.deactivated.2, hs.activated.2, hs.active⟩

/-- Constraints at two nodes and one at the root; one is deleted and a node is released. -/
def visits : List Op :=
  [.addHandler, .switchPath [0, 1], .add 0 7 (.below 1), .add 1 4 (.below 1), .add 0 8 .everywhere, .delete 1,
    .add 0 9 (.below 2), .releaseNode 1, .add 2 5 .everywhere, .switchPath [0, 2]]

/-- What is left is active in the order of the switch, with the indices of its calls. -/
theorem active_iff_onPath_released :
    (Ledger.of 1 visits).records.map ConsRecord.deleted = [true, true, false, false] ∧
      (∀ id, id ∈ (visits.foldl step (new 1)).activeOf 0 ↔ id = 2 ∨ id = 3) ∧
      (visits.foldl step (new 1)).activeOf 1 = #[] := by
  obtain ⟨-, -, -, -, hactive, -⟩ := active_iff_onPath 1 visits
  have hrecords : (Ledger.of 1 visits).records = [⟨0, 7, .below 1, true⟩, ⟨1, 4, .below 1, true⟩, ⟨0, 8, .everywhere, false⟩,
      ⟨0, 9, .below 2, false⟩] := by decide
  have hforce : ∀ c ∈ (Ledger.of 1 visits).records, (Ledger.of 1 visits).InForce c ↔ c.deleted = false := by decide
  refine ⟨by rw [hrecords]; rfl, fun id => ?_, ?_⟩
  · rw [(hactive 0).2 id]
    constructor
    · rintro ⟨c, hc, -, hin⟩
      have hdeleted := (hforce c (List.mem_of_getElem? hc)).mp hin
      rw [hrecords] at hc
      match id with
      | 0 | 1 =>
        cases hc
        cases hdeleted
      | 2 => exact .inl rfl
      | 3 => exact .inr rfl
      | id + 4 => cases hc
    · rintro (rfl | rfl)
      · exact ⟨_, congrArg (·[2]?) hrecords, rfl, by decide⟩
      · exact ⟨_, congrArg (·[3]?) hrecords, rfl, by decide⟩
  · refine Array.eq_empty_iff_forall_not_mem.mpr fun id hid => ?_
    obtain ⟨c, hc, hh, hin⟩ := ((hactive 1).2 id).mp hid
    have hdeleted := (hforce c (List.mem_of_getElem? hc)).mp hin
    rw [hrecords] at hc
    match id with
    | 0 | 1 =>
      cases hc
      cases hdeleted
    | 2 | 3 =>
      cases hc
      cases hh
    | id + 4 => cases hc

end BranchAndCut.Registry

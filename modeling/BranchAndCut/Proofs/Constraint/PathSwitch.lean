import BranchAndCut.Proofs.Constraint.ActiveLists
import BranchAndCut.Proofs.Domain.Restore

/-! # Active constraints follow the path

A constraint is active exactly while it is not deleted and valid everywhere or below a
node of the path. The path notes where each local constraint became active: at the place
of its node that is nearest to the root. So leaving a node makes its constraints inactive,
unless the node is on the path above as well, and entering it makes them active again. -/

namespace BranchAndCut.Registry

variable {r s : Registry} {id : ConsId} {h : HandlerId} {node : NodeId}

/-- The constraint is valid at the end of the path. -/
def OnPath (r : Registry) (id : ConsId) : Prop :=
  (r.record id).scope = .everywhere ∨ ∃ node ∈ r.path.map Prod.fst, (r.record id).scope = .below node

/-- Each active local constraint is noted at the place of its node nearest to the root,
and no other local constraint is. -/
def Noted (r : Registry) : List (NodeId × Array ConsId) → Prop
  | [] => True
  | (node, entered) :: rest =>
    r.Noted rest ∧
    (∀ id ∈ entered, node ∉ rest.map Prod.fst ∧ id < r.size ∧ (r.record id).scope = .below node) ∧
    (node ∉ rest.map Prod.fst → ∀ id, r.isActive id = true → (r.record id).scope = .below node →
      id ∈ entered)

/-- What holds of every registry. -/
structure Wf (r : Registry) : Prop where
  mirrors : r.Mirrors
  listed : ∀ {node id}, id ∈ r.ofNode node → id < r.size ∧ (r.record id).scope = .below node
  waiting : ∀ {node id}, id < r.size → (r.record id).scope = .below node → r.isDeleted id = false →
    id ∈ r.ofNode node
  nodup : ∀ node, (r.ofNode node).toList.Nodup
  follows : ∀ id < r.size, r.isActive id = true ↔ r.isDeleted id = false ∧ r.OnPath id
  noted : r.Noted r.path

/-- Notes stay right where records keep their scopes and no constraint of the path
becomes active. -/
theorem Noted.transfer {path : List (NodeId × Array ConsId)} (hr : r.Noted path)
    (hscope : ∀ id < r.size, id < s.size ∧ (s.record id).scope = (r.record id).scope)
    (hactive : ∀ node ∈ path.map Prod.fst, ∀ id, s.isActive id = true →
      (s.record id).scope = .below node → r.isActive id = true ∧ (r.record id).scope = .below node) :
    s.Noted path := by
  induction path with
  | nil => trivial
  | cons e rest ih =>
    obtain ⟨node, entered⟩ := e
    obtain ⟨hrest, hentered, hnoted⟩ := hr
    refine ⟨ih hrest fun n hn => hactive n (List.mem_cons_of_mem _ hn), fun id hid => ?_,
      fun hnode id hid hs => ?_⟩
    · obtain ⟨hnode, hlt, hs⟩ := hentered id hid
      obtain ⟨hlt', hsame⟩ := hscope id hlt
      exact ⟨hnode, hlt', hsame.trans hs⟩
    · obtain ⟨hid', hs'⟩ := hactive node List.mem_cons_self id hid hs
      exact hnoted hnode id hid' hs'

theorem Wf.isDeleted_eq_false (hr : r.Wf) (hid : r.isActive id = true) : r.isDeleted id = false :=
  ((hr.follows id (hr.mirrors.lt_of_isActive hid)).mp hid).1

theorem Wf.onPath (hr : r.Wf) (hid : r.isActive id = true) : r.OnPath id :=
  ((hr.follows id (hr.mirrors.lt_of_isActive hid)).mp hid).2

/-- A constraint that is not deleted and belongs to a node of the path is active. -/
theorem Wf.isActive_of_ofNode (hr : r.Wf) (hid : id ∈ r.ofNode node)
    (hdeleted : r.isDeleted id = false) (hnode : node ∈ r.path.map Prod.fst) :
    r.isActive id = true := by
  obtain ⟨hlt, hscope⟩ := hr.listed hid
  exact (hr.follows id hlt).mpr ⟨hdeleted, .inr ⟨node, hnode, hscope⟩⟩

/-! ## Switching the path -/

/-- A registry on its way from the path of `r` to another one, with what it reports. -/
structure Switch (r : Registry) (acc : Registry × ActivationDelta) : Prop where
  wf : acc.1.Wf
  records : acc.1.records = r.records
  byNode : acc.1.byNode = r.byNode
  families : acc.1.active.size = r.active.size
  deactivated : acc.2.deactivated.Nodup ∧ ∀ id ∈ acc.2.deactivated, r.isActive id = true
  activated : acc.2.activated.Nodup ∧ ∀ id ∈ acc.2.activated,
    ¬ (r.isActive id = true ∧ id ∉ acc.2.deactivated)
  active : ∀ id, acc.1.isActive id = true ↔
    r.isActive id = true ∧ id ∉ acc.2.deactivated ∨ id ∈ acc.2.activated

/-- One round of leaving a node. -/
def drop (acc : Registry × ActivationDelta) (id : ConsId) : Registry × ActivationDelta :=
  match acc.1.deactivate id with
  | (true, r) => (r, { acc.2 with deactivated := acc.2.deactivated ++ [id] })
  | (false, r) => (r, acc.2)

/-- The constraints of a node become inactive one by one; those that were active before
are reported. -/
theorem foldl_drop (hr : r.Mirrors) (delta : ActivationDelta) (ids : List ConsId) :
    Relisted r (ids.foldl drop (r, delta)).1 ∧
      (∀ x, (ids.foldl drop (r, delta)).1.isActive x = true ↔ r.isActive x = true ∧ x ∉ ids) ∧
      ∃ dropped, (ids.foldl drop (r, delta)).2 =
          { delta with deactivated := delta.deactivated ++ dropped } ∧
        dropped.Nodup ∧ ∀ x, x ∈ dropped ↔ r.isActive x = true ∧ x ∈ ids := by
  induction ids generalizing r delta with
  | nil => exact ⟨.refl hr, by simp, [], by simp, List.nodup_nil, by simp⟩
  | cons id ids ih =>
    obtain ⟨hfst, hlisted, hactive⟩ := deactivate_spec hr id
    have hround : drop (r, delta) id = ((r.deactivate id).2,
        if r.isActive id then { delta with deactivated := delta.deactivated ++ [id] } else delta) := by
      unfold drop
      rw [← hfst]
      cases hd : r.deactivate id with
      | mk was r' => cases was <;> rfl
    rw [List.foldl_cons, hround]
    obtain ⟨hlisted', hactive', dropped, heq, hnodup, hdropped⟩ := ih hlisted.mirrors
      (if r.isActive id then { delta with deactivated := delta.deactivated ++ [id] } else delta)
    refine ⟨hlisted.trans hlisted', fun x => ?_, ?_⟩
    · rw [hactive', hactive, List.mem_cons, not_or, and_assoc]
    · by_cases hid : r.isActive id = true
      · refine ⟨id :: dropped, ?_, List.nodup_cons.mpr ⟨fun hmem => ?_, hnodup⟩, fun x => ?_⟩
        · rw [heq, if_pos hid]
          simp
        · exact ((hactive id).mp ((hdropped id).mp hmem).1).2 rfl
        · rw [List.mem_cons, List.mem_cons, hdropped, hactive]
          by_cases hx : x = id
          · simp [hx, hid]
          · simp [hx]
      · refine ⟨dropped, ?_, hnodup, fun x => ?_⟩
        · rw [heq, if_neg hid]
        · rw [hdropped, hactive, List.mem_cons]
          by_cases hx : x = id
          · simp [hx, hid]
          · simp [hx]

/-- Behind the deepest node, whose constraints are no longer active. -/
theorem Wf.left (hr : r.Wf) {entered : Array ConsId} {rest : List (NodeId × Array ConsId)}
    (hpath : r.path = (node, entered) :: rest) (hs : Relisted { r with path := rest } s)
    (hactive : ∀ id, s.isActive id = true ↔ r.isActive id = true ∧ id ∉ entered) : s.Wf := by
  obtain ⟨hrest, hentered, hnoted⟩ : r.Noted ((node, entered) :: rest) := hpath ▸ hr.noted
  have hrecord : ∀ id, s.record id = r.record id := hs.record
  have hsize : s.size = r.size := hs.size
  have hofNode : ∀ n, s.ofNode n = r.ofNode n := hs.ofNode
  refine ⟨hs.mirrors, fun hid => ?_, fun hid hscope hdeleted => ?_, fun n => ?_, fun id hid => ?_, ?_⟩
  · rw [hofNode] at hid
    rw [hsize, hrecord]
    exact hr.listed hid
  · rw [hsize] at hid
    rw [hrecord] at hscope
    unfold isDeleted at hdeleted
    rw [hrecord] at hdeleted
    rw [hofNode]
    exact hr.waiting hid hscope hdeleted
  · rw [hofNode]
    exact hr.nodup n
  · rw [hsize] at hid
    have hold := hr.follows id hid
    unfold isDeleted OnPath at hold ⊢
    rw [hpath] at hold
    rw [hactive, hold, hrecord, hs.path]
    constructor
    · rintro ⟨⟨hdeleted, hscope | ⟨n, hn, hscope⟩⟩, hnot⟩
      · exact ⟨hdeleted, .inl hscope⟩
      · rcases List.mem_cons.mp hn with rfl | hn
        · by_cases hmem : n ∈ rest.map Prod.fst
          · exact ⟨hdeleted, .inr ⟨n, hmem, hscope⟩⟩
          · have hid' := hold.mpr ⟨hdeleted, .inr ⟨n, List.mem_cons_self, hscope⟩⟩
            exact (hnot (hnoted hmem id hid' hscope)).elim
        · exact ⟨hdeleted, .inr ⟨n, hn, hscope⟩⟩
    · rintro ⟨hdeleted, hscope⟩
      refine ⟨⟨hdeleted, hscope.imp_right fun ⟨n, hn, hs⟩ => ⟨n, List.mem_cons_of_mem _ hn, hs⟩⟩,
        fun hmem => ?_⟩
      obtain ⟨hnode, -, hbelow⟩ := hentered id hmem
      rcases hscope with hscope | ⟨n, hn, hscope⟩
      · rw [hscope] at hbelow
        cases hbelow
      · rw [hscope] at hbelow
        cases hbelow
        exact hnode hn
  · rw [hs.path]
    refine hrest.transfer (fun id hid => ?_) fun n hn id hid hscope => ?_
    · rw [hsize, hrecord]
      exact ⟨hid, rfl⟩
    · rw [hrecord] at hscope
      exact ⟨((hactive id).mp hid).1, hscope⟩

variable {acc : Registry × ActivationDelta}

/-- Leaving a node. -/
theorem Switch.leave (hs : Switch r acc) (hnone : acc.2.activated = []) :
    Switch r (leave acc.1 acc.2) ∧ (Registry.leave acc.1 acc.2).2.activated = [] ∧
      (Registry.leave acc.1 acc.2).1.path = acc.1.path.tail := by
  cases hp : acc.1.path with
  | nil =>
    unfold Registry.leave
    rw [hp]
    exact ⟨hs, hnone, hp⟩
  | cons e rest =>
    obtain ⟨node, entered⟩ := e
    have hround : Registry.leave acc.1 acc.2 =
        entered.toList.reverse.foldl drop ({ acc.1 with path := rest }, acc.2) := by
      unfold Registry.leave
      rw [hp]
      rfl
    have hwf := hs.wf
    have hcut : Mirrors { acc.1 with path := rest } :=
      ⟨hwf.mirrors.indexSize, hwf.mirrors.posSize, hwf.mirrors.family, hwf.mirrors.placed,
        hwf.mirrors.indices⟩
    obtain ⟨hlisted, hactive, dropped, heq, hnodup, hdropped⟩ :=
      foldl_drop hcut acc.2 entered.toList.reverse
    have hactive' : ∀ id, (entered.toList.reverse.foldl drop ({ acc.1 with path := rest }, acc.2)).1.isActive id =
        true ↔ acc.1.isActive id = true ∧ id ∉ entered := fun id => by
      rw [hactive, List.mem_reverse, Array.mem_toList_iff]
      rfl
    have hdropped' : ∀ id, id ∈ dropped ↔
        (r.isActive id = true ∧ id ∉ acc.2.deactivated) ∧ id ∈ entered := fun id => by
      rw [hdropped, List.mem_reverse, Array.mem_toList_iff]
      refine and_congr_left fun _ => (hs.active id).trans ?_
      rw [hnone]
      simp
    rw [hround]
    refine ⟨⟨hwf.left hp hlisted hactive', hlisted.records.trans hs.records,
      hlisted.byNode.trans hs.byNode, hlisted.families.trans hs.families, ?_, ?_, fun id => ?_⟩, ?_, ?_⟩
    · rw [heq]
      refine ⟨List.nodup_append.mpr ⟨hs.deactivated.1, hnodup, fun a ha b hb => ?_⟩, fun id hid => ?_⟩
      · rintro rfl
        exact ((hdropped' a).mp hb).1.2 ha
      · rcases List.mem_append.mp hid with hid | hid
        · exact hs.deactivated.2 id hid
        · exact ((hdropped' id).mp hid).1.1
    · rw [heq, hnone]
      exact ⟨List.nodup_nil, nofun⟩
    · rw [heq, hactive', hs.active, hnone, List.mem_append, hdropped']
      simp only [List.not_mem_nil, or_false, not_or]
      constructor
      · rintro ⟨⟨hid, hnot⟩, hnot'⟩
        exact ⟨hid, hnot, fun hmem => hnot' hmem.2⟩
      · rintro ⟨hid, hnot, hnot'⟩
        exact ⟨⟨hid, hnot⟩, fun hmem => hnot' ⟨⟨hid, hnot⟩, hmem⟩⟩
    · rw [heq]
      exact hnone
    · exact hlisted.path

theorem Switch.repeat_leave (hs : Switch r acc) (hnone : acc.2.activated = []) (n : Nat) :
    let acc' := n.repeat (fun (r, delta) => Registry.leave r delta) acc
    Switch r acc' ∧ acc'.2.activated = [] ∧ acc'.1.path = acc.1.path.drop n := by
  induction n with
  | zero => exact ⟨hs, hnone, rfl⟩
  | succ n ih =>
    obtain ⟨hs', hnone', hpath⟩ := ih
    obtain ⟨hleft, hnone'', hpath'⟩ := hs'.leave hnone'
    exact ⟨hleft, hnone'', by rw [← List.tail_drop, ← hpath]; exact hpath'⟩

theorem foldl_activate (hr : r.Mirrors) {ids : List ConsId} (hids : ∀ id ∈ ids, id < r.size) :
    Relisted r (ids.foldl activate r) ∧
      ∀ x, (ids.foldl activate r).isActive x = true ↔ r.isActive x = true ∨ x ∈ ids := by
  induction ids generalizing r with
  | nil => exact ⟨.refl hr, by simp⟩
  | cons id ids ih =>
    obtain ⟨hlisted, hactive⟩ := activate_spec hr (hids id List.mem_cons_self)
    obtain ⟨hlisted', hactive'⟩ := ih hlisted.mirrors fun x hx => by
      rw [hlisted.size]
      exact hids x (List.mem_cons_of_mem _ hx)
    refine ⟨hlisted.trans hlisted', fun x => ?_⟩
    rw [List.foldl_cons, hactive', hactive, or_assoc, List.mem_cons]

/-- At a new deepest node, whose constraints have become active. -/
theorem Wf.entered (hr : r.Wf) {entered : Array ConsId}
    (hentered : ∀ id, id ∈ entered ↔
      id ∈ r.ofNode node ∧ r.isDeleted id = false ∧ ¬ r.isActive id = true)
    (hs : Relisted r s) (hactive : ∀ id, s.isActive id = true ↔ r.isActive id = true ∨ id ∈ entered) :
    Wf { s with path := (node, entered) :: r.path } := by
  have hrecord := hs.record
  have hnew : ∀ id ∈ entered, node ∉ r.path.map Prod.fst ∧ id < r.size ∧
      (r.record id).scope = .below node := by
    intro id hid
    obtain ⟨hmem, hdeleted, hnot⟩ := (hentered id).mp hid
    exact ⟨fun hnode => hnot (hr.isActive_of_ofNode hmem hdeleted hnode), hr.listed hmem⟩
  refine ⟨⟨hs.mirrors.indexSize, hs.mirrors.posSize, hs.mirrors.family, hs.mirrors.placed,
    hs.mirrors.indices⟩, fun {n id} hid => ?_, fun {n id} hid hscope hdeleted => ?_, fun n => ?_,
    fun id hid => ?_, ?_, fun id hid => ?_, fun hnode id hid hscope => ?_⟩
  · change id ∈ s.ofNode n at hid
    rw [hs.ofNode] at hid
    show id < s.size ∧ (s.record id).scope = .below n
    rw [hs.size, hrecord]
    exact hr.listed hid
  · change id < s.size at hid
    change (s.record id).scope = .below n at hscope
    change (s.record id).deleted = false at hdeleted
    show id ∈ s.ofNode n
    rw [hs.size] at hid
    rw [hrecord] at hscope hdeleted
    rw [hs.ofNode]
    exact hr.waiting hid hscope hdeleted
  · show (s.ofNode n).toList.Nodup
    rw [hs.ofNode]
    exact hr.nodup n
  · change id < s.size at hid
    rw [hs.size] at hid
    show s.isActive id = true ↔ (s.record id).deleted = false ∧ ((s.record id).scope = .everywhere ∨
      ∃ n ∈ ((node, entered) :: r.path).map Prod.fst, (s.record id).scope = .below n)
    rw [hactive, hentered, hrecord]
    have hold := hr.follows id hid
    unfold OnPath isDeleted at hold
    constructor
    · rintro (hid' | ⟨hmem, hdeleted, -⟩)
      · obtain ⟨hdeleted, hscope⟩ := hold.mp hid'
        exact ⟨hdeleted, hscope.imp_right fun ⟨n, hn, hs⟩ => ⟨n, List.mem_cons_of_mem _ hn, hs⟩⟩
      · exact ⟨hdeleted, .inr ⟨node, List.mem_cons_self, (hr.listed hmem).2⟩⟩
    · rintro ⟨hdeleted, hscope⟩
      by_cases hid' : r.isActive id = true
      · exact .inl hid'
      · refine .inr ⟨?_, hdeleted, hid'⟩
        rcases hscope with hscope | ⟨n, hn, hscope⟩
        · exact (hid' (hold.mpr ⟨hdeleted, .inl hscope⟩)).elim
        · rcases List.mem_cons.mp hn with rfl | hn
          · exact hr.waiting hid hscope hdeleted
          · exact (hid' (hold.mpr ⟨hdeleted, .inr ⟨n, hn, hscope⟩⟩)).elim
  · refine hr.noted.transfer (fun id hid => ⟨?_, ?_⟩) fun n hn id hid hscope => ?_
    · exact hs.size ▸ hid
    · exact congrArg ConsRecord.scope (hrecord id)
    · have hscope' : (r.record id).scope = .below n := hrecord id ▸ hscope
      rcases (hactive id).mp hid with hid | hid
      · exact ⟨hid, hscope'⟩
      · obtain ⟨hnode, -, hbelow⟩ := hnew id hid
        rw [hscope'] at hbelow
        cases hbelow
        exact (hnode hn).elim
  · obtain ⟨hnode, hlt, hscope⟩ := hnew id hid
    exact ⟨hnode, hs.size ▸ hlt, (congrArg ConsRecord.scope (hrecord id)).trans hscope⟩
  · have hscope' : (r.record id).scope = .below node := hrecord id ▸ hscope
    rcases (hactive id).mp hid with hid | hid
    · rcases hr.onPath hid with heverywhere | ⟨n, hn, hbelow⟩
      · rw [heverywhere] at hscope'
        cases hscope'
      · rw [hbelow] at hscope'
        cases hscope'
        exact (hnode hn).elim
    · exact hid

/-- Entering a node. -/
theorem Switch.enter (hs : Switch r acc) (node : NodeId) :
    Switch r (enter acc node) ∧
      (Registry.enter acc node).1.path.map Prod.fst = node :: acc.1.path.map Prod.fst := by
  have hmem : ∀ id, id ∈ (acc.1.ofNode node).filter (fun id =>
      !acc.1.isDeleted id && !acc.1.isActive id) ↔
        id ∈ acc.1.ofNode node ∧ acc.1.isDeleted id = false ∧ ¬ acc.1.isActive id = true := by
    intro id
    simp [Array.mem_filter]
  have hnodup : ((acc.1.ofNode node).filter fun id =>
      !acc.1.isDeleted id && !acc.1.isActive id).toList.Nodup := by
    rw [Array.toList_filter]
    exact (hs.wf.nodup node).filter _
  unfold Registry.enter
  dsimp only
  generalize (acc.1.ofNode node).filter (fun id =>
      !acc.1.isDeleted id && !acc.1.isActive id) = entered at hmem hnodup ⊢
  rw [← Array.foldl_toList]
  have hlt : ∀ id ∈ entered.toList, id < acc.1.size := fun id hid =>
    (hs.wf.listed ((hmem id).mp (Array.mem_toList_iff.mp hid)).1).1
  obtain ⟨hlisted, hactive⟩ := foldl_activate hs.wf.mirrors hlt
  have hactive' : ∀ id, (entered.toList.foldl activate acc.1).isActive id = true ↔
      acc.1.isActive id = true ∨ id ∈ entered := fun id => by
    rw [hactive, Array.mem_toList_iff]
  have hfresh : ∀ id ∈ entered, ¬ (r.isActive id = true ∧ id ∉ acc.2.deactivated) ∧
      id ∉ acc.2.activated := by
    intro id hid
    have hnot := ((hmem id).mp hid).2.2
    rw [hs.active, not_or] at hnot
    exact hnot
  refine ⟨⟨?_, hlisted.records.trans hs.records, hlisted.byNode.trans hs.byNode,
    hlisted.families.trans hs.families, hs.deactivated, ⟨?_, fun id hid => ?_⟩, fun id => ?_⟩, rfl⟩
  · exact hs.wf.entered hmem hlisted hactive'
  · refine List.nodup_append.mpr ⟨hs.activated.1, hnodup, fun a ha b hb => ?_⟩
    rintro rfl
    exact (hfresh a (Array.mem_toList_iff.mp hb)).2 ha
  · rcases List.mem_append.mp hid with hid | hid
    · exact hs.activated.2 id hid
    · exact (hfresh id (Array.mem_toList_iff.mp hid)).1
  · show (entered.toList.foldl activate acc.1).isActive id = true ↔
      r.isActive id = true ∧ id ∉ acc.2.deactivated ∨ id ∈ acc.2.activated ++ entered.toList
    rw [hactive', hs.active, List.mem_append, Array.mem_toList_iff, or_assoc]

theorem Switch.foldl_enter (hs : Switch r acc) (nodes : List NodeId) :
    Switch r (nodes.foldl Registry.enter acc) ∧
      (nodes.foldl Registry.enter acc).1.path.map Prod.fst =
        nodes.reverse ++ acc.1.path.map Prod.fst := by
  induction nodes generalizing acc with
  | nil => exact ⟨hs, rfl⟩
  | cons node nodes ih =>
    obtain ⟨henter, hpath⟩ := hs.enter node
    obtain ⟨hrest, hpath'⟩ := ih henter
    refine ⟨hrest, ?_⟩
    rw [List.foldl_cons, hpath', hpath]
    simp

theorem common_eq (as bs : List NodeId) : common as bs = Domains.commonLength as bs := by
  induction as generalizing bs with
  | nil => cases bs <;> rfl
  | cons a as ih =>
    cases bs with
    | nil => rfl
    | cons b bs =>
      unfold common Domains.commonLength
      rw [ih]

/-- **A switch of the path** keeps the constraints that are not deleted and on the path
active, and reports what it changed. -/
theorem switchPath_spec (hr : r.Wf) (target : List NodeId) :
    Switch r ((r.switchPath target).2, (r.switchPath target).1) ∧
      (r.switchPath target).2.path.map Prod.fst = target.reverse := by
  have hstart : Switch r (r, {}) :=
    ⟨hr, rfl, rfl, rfl, ⟨List.nodup_nil, nofun⟩, ⟨List.nodup_nil, nofun⟩, by simp⟩
  obtain ⟨hleft, -, hpath⟩ := hstart.repeat_leave rfl
    (r.path.length - common (r.path.map Prod.fst).reverse target)
  obtain ⟨hs, hpath'⟩ := hleft.foldl_enter
    (target.drop (common (r.path.map Prod.fst).reverse target))
  refine ⟨hs, hpath'.trans ?_⟩
  have htake := Domains.take_commonLength (r.path.map Prod.fst).reverse target
  have hle := Domains.commonLength_le (r.path.map Prod.fst).reverse target
  rw [← common_eq] at htake hle
  rw [List.length_reverse, List.length_map] at hle
  have hkept : (r.path.drop (r.path.length - common (r.path.map Prod.fst).reverse target)).map
      Prod.fst = (target.take (common (r.path.map Prod.fst).reverse target)).reverse := by
    rw [← htake, List.reverse_take, List.length_reverse, List.length_map, List.reverse_reverse,
      List.map_drop]
  rw [hpath, hkept, ← List.reverse_append, List.take_append_drop]

end BranchAndCut.Registry

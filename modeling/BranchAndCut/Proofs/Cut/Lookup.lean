import BranchAndCut.Proofs.Cut.Pool

/-! # A pool by its numbers

What each operation on a pool does to the cut under a number, and how many cuts are active
after it. Numbers that were given out once are never given out again. -/

namespace BranchAndCut.CutPool

variable {K : Type} {p q : CutPool K} {id x : Nat} {c : PooledCut K}

theorem wf_new (settings : PoolSettings K) : (new settings).Wf := ⟨List.nodup_nil, nofun⟩

theorem Wf.get?_eq_some_iff (h : p.Wf) : p.get? x = some c ↔ c ∈ p.cuts ∧ c.id = x :=
  ⟨get?_some, fun ⟨hc, hid⟩ => hid ▸ h.get?_eq hc⟩

theorem Wf.lt_of_get? (h : p.Wf) (hget : p.get? x = some c) : x < p.nextId := by
  obtain ⟨hc, rfl⟩ := get?_some hget
  exact h.fresh c hc

/-- The cuts change, but keep their numbers. -/
theorem get?_map {f : PooledCut K → PooledCut K} (hf : ∀ c, (f c).id = c.id) (hq : q.cuts = p.cuts.map f) (x : Nat) :
    q.get? x = (p.get? x).map f := by
  unfold get?
  rw [hq, Array.find?_map]
  congr 2
  funext c
  show ((f c).id == x) = (c.id == x)
  rw [hf]

/-- One cut changes, but keeps its number. -/
theorem Wf.get?_modifyCut (h : p.Wf) (id : Nat) {f : PooledCut K → PooledCut K} (hf : ∀ c, (f c).id = c.id) (x : Nat) :
    (p.modifyCut id f).get? x = if x = id then (p.get? x).map f else p.get? x := by
  rw [h.modifyCut_eq, get?_map (p := p) (f := fun c => if c.id = id then f c else c) (fun c => ?_) rfl]
  · cases hx : p.get? x with
    | none => split <;> rfl
    | some c =>
      obtain rfl := (get?_some hx).2
      rw [Option.map_some]
      split <;> rfl
  · split
    · exact hf c
    · rfl

/-- Some cuts are dropped. -/
theorem Wf.get?_filter (h : p.Wf) {keep : PooledCut K → Bool} (hq : q.cuts = p.cuts.filter keep) (hwf : q.Wf)
    (x : Nat) : q.get? x = (p.get? x).filter keep := by
  refine Option.ext fun c => ?_
  rw [hwf.get?_eq_some_iff, hq, Array.mem_filter, Option.filter_eq_some_iff, h.get?_eq_some_iff]
  exact ⟨fun ⟨⟨hc, hkeep⟩, hid⟩ => ⟨⟨hc, hid⟩, hkeep⟩, fun ⟨⟨hc, hid⟩, hkeep⟩ => ⟨⟨hc, hkeep⟩, hid⟩⟩

/-! ## Active cuts -/

/-- There is an active cut under the number. -/
def IsActive (p : CutPool K) (x : Nat) : Prop := ∃ c, p.get? x = some c ∧ c.status = .active

theorem Wf.nodup_active (h : p.Wf) : (p.activeCuts.map PooledCut.id).Nodup :=
  h.nodup.sublist (List.filter_sublist.map _)

theorem Wf.mem_active (h : p.Wf) : x ∈ p.activeCuts.map PooledCut.id ↔ p.IsActive x := by
  unfold activeCuts IsActive
  simp only [List.mem_map, List.mem_filter, Array.mem_toList_iff, beq_iff_eq, h.get?_eq_some_iff]
  exact ⟨fun ⟨c, ⟨hc, hs⟩, hid⟩ => ⟨c, ⟨hc, hid⟩, hs⟩, fun ⟨c, ⟨hc, hid⟩, hs⟩ => ⟨c, ⟨hc, hs⟩, hid⟩⟩

/-- The count of active cuts grows by the numbers that become active. -/
theorem Wf.length_active (hp : p.Wf) (hq : q.Wf) {ids : List Nat} (hids : ids.Nodup)
    (hactive : ∀ x, q.IsActive x ↔ p.IsActive x ∨ x ∈ ids) (hnew : ∀ x ∈ ids, ¬ p.IsActive x) :
    q.activeCuts.length = p.activeCuts.length + ids.length := by
  have hnodup : (p.activeCuts.map PooledCut.id ++ ids).Nodup := by
    refine List.nodup_append.mpr ⟨hp.nodup_active, hids, fun a ha b hb heq => ?_⟩
    exact hnew b hb (heq ▸ hp.mem_active.mp ha)
  have hperm : (q.activeCuts.map PooledCut.id).Perm (p.activeCuts.map PooledCut.id ++ ids) := by
    refine (List.perm_ext_iff_of_nodup hq.nodup_active hnodup).mpr fun x => ?_
    rw [hq.mem_active, List.mem_append, hp.mem_active, hactive]
  have hlength := hperm.length_eq
  rwa [List.length_append, List.length_map, List.length_map] at hlength

/-! ## Changes of status -/

/-- The cuts under some numbers go over to another status; none of them was deleted. The
other cuts keep their status, but deleted ones may be dropped. -/
structure Turns (p q : CutPool K) (ids : List Nat) (target : CutStatus) : Prop where
  nextId : q.nextId = p.nextId
  turned : ∀ x ∈ ids, ∃ c c', p.get? x = some c ∧ c.status ≠ .deleted ∧ c.status ≠ target ∧
    q.get? x = some c' ∧ c'.cut = c.cut ∧ c'.status = target
  other : ∀ x ∉ ids, ∀ c, p.get? x = some c →
    (∃ c', q.get? x = some c' ∧ c'.cut = c.cut ∧ c'.status = c.status) ∨ c.status = .deleted ∧ q.get? x = none
  absent : ∀ x, p.get? x = none → q.get? x = none

namespace Turns

variable {ids : List Nat} {target : CutStatus}

/-- Nothing changes. -/
theorem of_get? (hnext : q.nextId = p.nextId) (hget : ∀ x, q.get? x = p.get? x) (target : CutStatus) :
    Turns p q [] target where
  nextId := hnext
  turned := nofun
  other x _ c hc := .inl ⟨c, (hget x).trans hc, rfl, rfl⟩
  absent x hx := (hget x).trans hx

/-- **The numbers are those of the cuts whose status changes.** -/
theorem mem_iff (h : Turns p q ids target) : x ∈ ids ↔
    ∃ c c', p.get? x = some c ∧ q.get? x = some c' ∧ c'.status ≠ c.status := by
  constructor
  · intro hx
    obtain ⟨c, c', hc, -, hs, hc', -, hs'⟩ := h.turned x hx
    exact ⟨c, c', hc, hc', fun heq => hs (heq.symm.trans hs')⟩
  · rintro ⟨c, c', hc, hc', hne⟩
    by_contra hx
    rcases h.other x hx c hc with ⟨d, hd, -, hs⟩ | ⟨-, hnone⟩
    · exact hne (Option.some.inj (hc'.symm.trans hd) ▸ hs)
    · rw [hc'] at hnone
      cases hnone

theorem isActive_of_not_mem (h : Turns p q ids target) (hx : x ∉ ids) : q.IsActive x ↔ p.IsActive x := by
  constructor
  · rintro ⟨c', hc', hactive⟩
    cases hc : p.get? x with
    | none =>
      rw [h.absent x hc] at hc'
      cases hc'
    | some c =>
      rcases h.other x hx c hc with ⟨d, hd, -, hs⟩ | ⟨-, hnone⟩
      · exact ⟨c, hc, hs.symm.trans (Option.some.inj (hc'.symm.trans hd) ▸ hactive)⟩
      · rw [hc'] at hnone
        cases hnone
  · rintro ⟨c, hc, hactive⟩
    rcases h.other x hx c hc with ⟨d, hd, -, hs⟩ | ⟨hdeleted, -⟩
    · exact ⟨d, hd, hs.trans hactive⟩
    · rw [hactive] at hdeleted
      cases hdeleted

/-- The count of active cuts after some became active. -/
theorem length_active (h : Turns p q ids .active) (hp : p.Wf) (hq : q.Wf) (hids : ids.Nodup) :
    q.activeCuts.length = p.activeCuts.length + ids.length := by
  refine hp.length_active hq hids (fun x => ?_) fun x hx => ?_
  · by_cases hx : x ∈ ids
    · obtain ⟨-, c', -, -, -, hc', -, hs'⟩ := h.turned x hx
      exact iff_of_true ⟨c', hc', hs'⟩ (.inr hx)
    · rw [h.isActive_of_not_mem hx, or_iff_left hx]
  · rintro ⟨d, hd, hactive⟩
    obtain ⟨c, -, hc, -, hs, -⟩ := h.turned x hx
    exact hs (Option.some.inj (hc.symm.trans hd) ▸ hactive)

/-- The count of active cuts after some were taken out, of which some were active. -/
theorem length_active_of_ne (h : Turns p q ids target) (htarget : target ≠ .active) (hp : p.Wf) (hq : q.Wf)
    {lost : List Nat} (hnodup : lost.Nodup) (hlost : ∀ x, x ∈ lost ↔ x ∈ ids ∧ p.IsActive x) :
    p.activeCuts.length = q.activeCuts.length + lost.length := by
  have hgone : ∀ x ∈ ids, ¬ q.IsActive x := by
    rintro x hx ⟨d, hd, hs⟩
    obtain ⟨-, c', -, -, -, hc', -, hs'⟩ := h.turned x hx
    exact htarget (hs'.symm.trans (Option.some.inj (hd.symm.trans hc') ▸ hs))
  refine hq.length_active hp hnodup (fun x => ?_) fun x hx => hgone x ((hlost x).mp hx).1
  rw [hlost]
  by_cases hx : x ∈ ids
  · exact ⟨fun hactive => .inr ⟨hx, hactive⟩, fun hor => hor.elim (absurd · (hgone x hx)) And.right⟩
  · rw [h.isActive_of_not_mem hx, or_iff_left fun hmem => hx hmem.1]

/-- Only active cuts are set aside. -/
theorem isActive_of_mem (h : Turns p q ids .inactive) (hx : x ∈ ids) : p.IsActive x := by
  obtain ⟨c, -, hc, hlive, hs, -⟩ := h.turned x hx
  refine ⟨c, hc, ?_⟩
  cases hstatus : c.status with
  | active => rfl
  | inactive => exact (hs hstatus).elim
  | deleted => exact (hlive hstatus).elim

end Turns

/-! ## Bringing cuts back -/

/-- An inactive cut brought back; other cuts stay. -/
def revived (c : PooledCut K) : PooledCut K :=
  if c.status = .inactive then { c with status := .active, slackCount := 0 } else c

theorem revived_of_inactive (hs : c.status = .inactive) :
    revived c = { c with status := .active, slackCount := 0 } := if_pos hs

theorem revived_of_ne (hs : c.status ≠ .inactive) : revived c = c := if_neg hs

theorem revived_revived (c : PooledCut K) : revived (revived c) = revived c := by
  by_cases hs : c.status = .inactive
  · rw [revived_of_inactive hs]
    exact revived_of_ne nofun
  · rw [revived_of_ne hs, revived_of_ne hs]

theorem Wf.get?_activate (h : p.Wf) (id x : Nat) :
    (p.activate id).2.get? x = if x = id then (p.get? x).map revived else p.get? x := by
  have hsame : (∀ c, p.get? id = some c → revived c = c) →
      p.get? x = if x = id then (p.get? x).map revived else p.get? x := fun hrevived => by
    split
    · next heq =>
      cases hx : p.get? x with
      | none => rfl
      | some c => rw [Option.map_some, hrevived c (heq ▸ hx)]
    · rfl
  unfold CutPool.activate
  cases hget : p.get? id with
  | none => exact hsame fun c hc => nomatch hget.symm.trans hc
  | some c =>
    dsimp only
    split
    · next hs =>
      have hread := h.get?_modifyCut id (f := fun c => { c with status := .active, slackCount := 0 }) (fun _ => rfl) x
      refine hread.trans ?_
      split
      · next heq => rw [heq, hget, Option.map_some, Option.map_some, revived_of_inactive hs]
      · rfl
    · next hs =>
      exact hsame fun d hd => revived_of_ne (Option.some.inj (hget.symm.trans hd) ▸ hs)

theorem activate_fst : (p.activate id).1 = true ↔ ∃ c, p.get? id = some c ∧ c.status = .inactive := by
  unfold CutPool.activate
  cases hget : p.get? id with
  | none => exact ⟨nofun, fun ⟨c, hc, _⟩ => nomatch hc⟩
  | some c =>
    dsimp only
    split
    · next hs => exact ⟨fun _ => ⟨c, rfl, hs⟩, fun _ => rfl⟩
    · next hs => exact ⟨nofun, fun ⟨d, hd, hinactive⟩ => absurd (Option.some.inj hd ▸ hinactive) hs⟩

theorem activate_numbers (p : CutPool K) (id : Nat) : (p.activate id).2.nextId = p.nextId ∧
    (p.activate id).2.numActive = p.numActive + if (p.activate id).1 then 1 else 0 := by
  unfold CutPool.activate CutPool.modifyCut
  split
  · exact ⟨rfl, rfl⟩
  · split
    · split <;> exact ⟨rfl, rfl⟩
    · exact ⟨rfl, rfl⟩

/-- Inactive cuts are brought back, some of them maybe named twice. -/
theorem Wf.get?_foldl_activate (h : p.Wf) (ids : List Nat) (x : Nat) :
    (ids.foldl (fun p id => (p.activate id).2) p).get? x = if x ∈ ids then (p.get? x).map revived else p.get? x := by
  induction ids generalizing p with
  | nil => rfl
  | cons id ids ih =>
    rw [List.foldl_cons, ih (h.activate id).wf, h.get?_activate]
    by_cases hid : x = id
    · rw [if_pos hid, if_pos (List.mem_cons.mpr (.inl hid)), Option.map_map]
      split
      · exact congrArg (Option.map · _) (funext revived_revived)
      · rfl
    · simp only [List.mem_cons, hid, false_or, if_false]

theorem foldl_activate_nextId (p : CutPool K) (ids : List Nat) :
    (ids.foldl (fun p id => (p.activate id).2) p).nextId = p.nextId := by
  induction ids generalizing p with
  | nil => rfl
  | cons id ids ih => rw [List.foldl_cons, ih, (p.activate_numbers id).1]

/-- Bringing back inactive cuts. -/
theorem Wf.foldl_activate_turns (h : p.Wf) {ids : List Nat}
    (hids : ∀ x ∈ ids, ∃ c, p.get? x = some c ∧ c.status = .inactive) :
    Turns p (ids.foldl (fun p id => (p.activate id).2) p) ids .active where
  nextId := p.foldl_activate_nextId ids
  turned x hx := by
    obtain ⟨c, hc, hs⟩ := hids x hx
    refine ⟨c, revived c, hc, by rw [hs]; nofun, by rw [hs]; nofun, ?_, ?_, ?_⟩
    · rw [h.get?_foldl_activate, if_pos hx, hc, Option.map_some]
    · rw [revived_of_inactive hs]
    · rw [revived_of_inactive hs]
  other x hx c hc := .inl ⟨c, by rw [h.get?_foldl_activate, if_neg hx, hc], rfl, rfl⟩
  absent x hx := by
    rw [h.get?_foldl_activate, hx]
    split <;> rfl

/-- **Activating** brings one cut back, if it is inactive. -/
theorem Wf.activate_turns (h : p.Wf) (id : Nat) :
    Turns p (p.activate id).2 (if (p.activate id).1 then [id] else []) .active := by
  split
  · next hwas =>
    have hid : ∀ x ∈ [id], ∃ c, p.get? x = some c ∧ c.status = .inactive := fun x hx => by
      rw [List.mem_singleton.mp hx]
      exact activate_fst.mp hwas
    exact h.foldl_activate_turns hid
  · next hwas =>
    refine .of_get? (p.activate_numbers id).1 (fun x => ?_) _
    rw [h.get?_activate]
    split
    · next heq =>
      cases hx : p.get? x with
      | none => rfl
      | some c =>
        rw [Option.map_some, revived_of_ne fun hs => hwas (activate_fst.mpr ⟨c, heq ▸ hx, hs⟩)]
    · rfl

/-! ## Deleting -/

/-- The cut to be deleted, if it is not deleted yet. -/
def doomed (p : CutPool K) (id : Nat) : List Nat :=
  match p.get? id with
  | some c => if c.status = .deleted then [] else [id]
  | none => []

theorem mem_doomed : x ∈ p.doomed id ↔ x = id ∧ ∃ c, p.get? id = some c ∧ c.status ≠ .deleted := by
  unfold doomed
  cases p.get? id with
  | none => exact iff_of_false List.not_mem_nil fun ⟨_, _, hc, _⟩ => nomatch hc
  | some c =>
    dsimp only
    split
    · next hs => exact iff_of_false List.not_mem_nil fun ⟨_, d, hd, hlive⟩ => hlive (Option.some.inj hd ▸ hs)
    · next hs => exact List.mem_singleton.trans ⟨fun hx => ⟨hx, c, rfl, hs⟩, And.left⟩

theorem IsActive.delete_numActive (h : p.IsActive id) : (p.delete id).numActive = p.numActive - 1 := by
  obtain ⟨c, hc, hs⟩ := h
  refine if_pos ?_
  rw [hc]
  exact beq_iff_eq.mpr hs

theorem delete_numActive (h : ¬ p.IsActive id) : (p.delete id).numActive = p.numActive := by
  refine if_neg fun hactive => h ?_
  split at hactive
  · next c hc => exact ⟨c, hc, beq_iff_eq.mp hactive⟩
  · cases hactive

theorem Wf.get?_delete (h : p.Wf) (id x : Nat) : (p.delete id).get? x =
    if x = id then (p.get? x).map fun c => { c with status := .deleted } else p.get? x :=
  h.get?_modifyCut id (f := fun c => { c with status := .deleted }) (fun _ => rfl) x

theorem Wf.delete (h : p.Wf) (id : Nat) : (p.delete id).Wf := by
  have hmap := h.map (f := fun c => if c.id = id then { c with status := .deleted } else c) fun c => by split <;> rfl
  unfold CutPool.delete
  rw [h.modifyCut_eq]
  exact ⟨hmap.nodup, hmap.fresh⟩

theorem Wf.delete_turns (h : p.Wf) (id : Nat) : Turns p (p.delete id) (p.doomed id) .deleted := by
  have hnext : (p.delete id).nextId = p.nextId := by
    unfold CutPool.delete CutPool.modifyCut
    dsimp only
    split <;> rfl
  have hother : ∀ x, x ≠ id → (p.delete id).get? x = p.get? x := fun x hx => by rw [h.get?_delete, if_neg hx]
  have habsent : ∀ x, p.get? x = none → (p.delete id).get? x = none := fun x hx => by
    rw [h.get?_delete, hx]
    split <;> rfl
  unfold doomed
  cases hget : p.get? id with
  | none =>
    refine .of_get? hnext (fun x => ?_) _
    by_cases hx : x = id
    · rw [hx, habsent id hget, hget]
    · exact hother x hx
  | some c =>
    have hself : (p.delete id).get? id = some { c with status := .deleted } := by
      rw [h.get?_delete, if_pos rfl, hget]
      rfl
    dsimp only
    split
    · next hs =>
      refine .of_get? hnext (fun x => ?_) _
      by_cases hx : x = id
      · rw [hx, hself, hget, ← hs]
      · exact hother x hx
    · next hs =>
      refine ⟨hnext, fun x hx => ?_, fun x hx d hd => ?_, habsent⟩
      · rw [List.mem_singleton.mp hx]
        exact ⟨c, _, hget, hs, hs, hself, rfl, rfl⟩
      · exact .inl ⟨d, (hother x fun heq => hx (List.mem_singleton.mpr heq)).trans hd, rfl, rfl⟩

/-! ## Rounds -/

section Rounds

variable [Scalar K]

theorem active_of_isStale (hstale : p.isStale c = true) : c.status = .active := by
  unfold isStale at hstale
  split at hstale
  · cases hstale
  · next hs => exact not_not.mp hs

/-- A cut after the cleanup. -/
def setAside (p : CutPool K) (c : PooledCut K) : PooledCut K :=
  if p.isStale c then { c with status := .inactive } else c

theorem Wf.mem_cleanup (h : p.Wf) : x ∈ p.cleanup.1 ↔ ∃ c, p.get? x = some c ∧ p.isStale c = true := by
  simp only [CutPool.cleanup, List.mem_map, List.mem_filter, Array.mem_toList_iff, h.get?_eq_some_iff]
  exact ⟨fun ⟨c, ⟨hc, hs⟩, hid⟩ => ⟨c, ⟨hc, hid⟩, hs⟩, fun ⟨c, ⟨hc, hid⟩, hs⟩ => ⟨c, ⟨hc, hs⟩, hid⟩⟩

/-- The cleanup sets stale cuts aside, and may drop deleted ones. -/
theorem Wf.get?_cleanup (h : p.Wf) : ∃ keep : PooledCut K → Bool,
    (∀ c : PooledCut K, c.status ≠ .deleted → keep c = true) ∧
      ∀ x, p.cleanup.2.get? x = ((p.get? x).map p.setAside).filter keep := by
  have hid : ∀ c, (p.setAside c).id = c.id := fun c => by
    unfold setAside
    split <;> rfl
  have hmap := h.map hid
  have hread : ∀ x, get? { p with cuts := p.cuts.map p.setAside } x = (p.get? x).map p.setAside :=
    get?_map hid rfl
  have hcuts : ∃ keep : PooledCut K → Bool, (∀ c : PooledCut K, c.status ≠ .deleted → keep c = true) ∧
      p.cleanup.2.cuts = (p.cuts.map p.setAside).filter keep := by
    unfold CutPool.cleanup
    dsimp only
    split
    · exact ⟨fun c => c.status != .deleted, fun c hc => bne_iff_ne.mpr hc, rfl⟩
    · exact ⟨fun _ => true, fun _ _ => rfl, (Array.filter_eq_self.mpr fun _ _ => rfl).symm⟩
  obtain ⟨keep, hkeep, hcuts⟩ := hcuts
  exact ⟨keep, hkeep, fun x => (hmap.get?_filter hcuts h.cleanup.1 x).trans (by rw [hread])⟩

theorem Wf.cleanup_turns (h : p.Wf) : Turns p p.cleanup.2 p.cleanup.1 .inactive := by
  obtain ⟨keep, hkeep, hread⟩ := h.get?_cleanup
  refine ⟨rfl, fun x hx => ?_, fun x hx c hc => ?_, fun x hx => by rw [hread, hx]; rfl⟩
  · obtain ⟨c, hc, hstale⟩ := h.mem_cleanup.mp hx
    have hactive := active_of_isStale hstale
    have haside : p.setAside c = { c with status := .inactive } := if_pos hstale
    refine ⟨c, { c with status := .inactive }, hc, by rw [hactive]; nofun, by rw [hactive]; nofun, ?_, rfl, rfl⟩
    rw [hread, hc, Option.map_some, haside]
    exact Option.filter_eq_some_iff.mpr ⟨rfl, hkeep _ nofun⟩
  · have haside : p.setAside c = c := if_neg fun hstale => hx (h.mem_cleanup.mpr ⟨c, hc, hstale⟩)
    rw [hread, hc, Option.map_some, haside]
    by_cases hk : keep c = true
    · exact .inl ⟨c, Option.filter_eq_some_iff.mpr ⟨rfl, hk⟩, rfl, rfl⟩
    · refine .inr ⟨not_not.mp fun hs => hk (hkeep c hs), ?_⟩
      rw [Option.filter_some, if_neg hk]

theorem Wf.nodup_cleanup (h : p.Wf) : p.cleanup.1.Nodup := h.nodup.sublist (List.filter_sublist.map _)

omit [Scalar K] in
/-- Ageing changes no status. -/
theorem Turns.of_aged {aged : CutPool K} {ids : List Nat} {target : CutStatus} {round : Nat} {binding : List Nat}
    (h : Turns aged q ids target) (hnext : aged.nextId = p.nextId)
    (hcuts : aged.cuts = p.cuts.map (age round binding)) : Turns p q ids target := by
  have hread := get?_map (fun c => (age_eq round binding c).1) hcuts
  have hback : ∀ {x c}, aged.get? x = some c → ∃ d, p.get? x = some d ∧ c.status = d.status ∧ c.cut = d.cut := by
    intro x c hc
    rw [hread] at hc
    obtain ⟨d, hd, rfl⟩ := Option.map_eq_some_iff.mp hc
    exact ⟨d, hd, (age_eq round binding d).2⟩
  refine ⟨h.nextId.trans hnext, fun x hx => ?_, fun x hx c hc => ?_, fun x hx => h.absent x (by rw [hread, hx]; rfl)⟩
  · obtain ⟨c, c', hc, hlive, hs, hc', hcut, hs'⟩ := h.turned x hx
    obtain ⟨d, hd, hstatus, hsame⟩ := hback hc
    exact ⟨d, c', hd, hstatus ▸ hlive, hstatus ▸ hs, hc', hcut.trans hsame, hs'⟩
  · obtain ⟨-, hstatus, hcut⟩ := age_eq round binding c
    have haged : aged.get? x = some (age round binding c) := by rw [hread, hc, Option.map_some]
    rw [← hstatus, ← hcut]
    exact h.other x hx _ haged

/-- **Counting a round** sets some active cuts aside. -/
theorem Wf.updateActivity_turns (h : p.Wf) (duals : List (Nat × K)) :
    Turns p (p.updateActivity duals).2 (p.updateActivity duals).1 .inactive ∧ (p.updateActivity duals).1.Nodup ∧
      (p.updateActivity duals).2.numActive = p.numActive - (p.updateActivity duals).1.length := by
  unfold CutPool.updateActivity
  generalize p.round + 1 = round
  generalize ((duals.filter fun x => decide (1e-8 < Scalar.abs x.2)).map Prod.fst) = binding
  dsimp only
  have haged : Wf { p with round, cuts := p.cuts.map (age round binding) } := by
    have hmap := h.map (f := age round binding) fun c => (age_eq round binding c).1
    exact ⟨hmap.nodup, hmap.fresh⟩
  split
  · exact ⟨haged.cleanup_turns.of_aged rfl rfl, haged.nodup_cleanup, rfl⟩
  · refine ⟨?_, List.nodup_nil, rfl⟩
    exact Turns.of_aged (.of_get? rfl (fun _ => rfl) _) rfl rfl

/-- **Separating the cuts set aside** makes those active that it finds. -/
theorem Wf.separateInactive_turns (h : p.Wf) (x : Array K) (minEfficacy : K) :
    Turns p (p.separateInactive x minEfficacy).2 (p.separateInactive x minEfficacy).1 .active ∧
      (p.separateInactive x minEfficacy).1.Nodup := by
  refine ⟨h.foldl_activate_turns fun id hid => ?_, h.nodup.sublist (List.filter_sublist.map _)⟩
  obtain ⟨c, hc, rfl⟩ := List.mem_map.mp hid
  obtain ⟨hc, hcond⟩ := List.mem_filter.mp hc
  rw [Bool.and_eq_true, beq_iff_eq] at hcond
  exact ⟨c, h.get?_eq (Array.mem_toList_iff.mp hc), hcond.1⟩

/-! ## Adding -/

/-- A cut that is stored under a new number. -/
def stored (p : CutPool K) (cut : Cut K) : PooledCut K where
  cut := cut
  id := p.nextId
  addedRound := p.round
  lastBindingRound := p.round

/-- A cut as it is added: one like it is active already, an inactive one like it is brought
back, or it is stored, unlike all cuts that are not deleted. -/
inductive Adding (p : CutPool K) (cut : Cut K) : Nat × Bool × CutPool K → Prop
  | repeated (c : PooledCut K) (hc : p.get? c.id = some c) (hs : c.status = .active)
      (hlike : parallel cut.row c.cut.row = true) :
      Adding p cut (c.id, true, { p with duplicates := p.duplicates + 1 })
  | broughtBack (c : PooledCut K) (hc : p.get? c.id = some c) (hs : c.status = .inactive)
      (hlike : parallel cut.row c.cut.row = true) : Adding p cut (c.id, false, (p.activate c.id).2)
  | new (q : CutPool K) (hunlike : ∀ x c, p.get? x = some c → c.status ≠ .deleted → parallel cut.row c.cut.row = false)
      (hread : ∀ x, q.get? x = if x = p.nextId then some (p.stored cut) else p.get? x)
      (hnext : q.nextId = p.nextId + 1) (hcount : q.numActive = p.numActive + 1) : Adding p cut (p.nextId, false, q)

/-- **Adding a cut** is one of the three. -/
theorem Wf.adding (h : p.Wf) (cut : Cut K) : Adding p cut (p.add cut) := by
  have hwf := h.add cut
  unfold CutPool.add at hwf ⊢
  cases hfind : p.cuts.find? fun c => c.status != .deleted && parallel cut.row c.cut.row with
  | some c =>
    have hc := h.get?_eq (Array.mem_of_find?_eq_some hfind)
    have hcond := Array.find?_some hfind
    rw [Bool.and_eq_true, bne_iff_ne] at hcond
    dsimp only
    split
    · next hs => exact .repeated c hc hs hcond.2
    · next hs =>
      refine .broughtBack c hc ?_ hcond.2
      cases hstatus : c.status with
      | active => exact (hs hstatus).elim
      | inactive => rfl
      | deleted => exact (hcond.1 hstatus).elim
  | none =>
    rw [hfind] at hwf
    have hnone := Array.find?_eq_none.mp hfind
    refine .new _ (fun x c hc hs => ?_) (fun x => ?_) rfl rfl
    · have hcond := hnone c (get?_some hc).1
      rw [Bool.and_eq_true, bne_iff_ne] at hcond
      exact Bool.eq_false_iff.mpr fun hlike => hcond ⟨hs, hlike⟩
    · refine Option.ext fun c => hwf.1.wf.get?_eq_some_iff.trans ?_
      rw [Array.mem_push]
      split
      · next hx =>
        rw [Option.some.injEq]
        refine ⟨fun ⟨hc, hid⟩ => ?_, fun heq => ⟨.inr heq.symm, heq ▸ hx.symm⟩⟩
        rcases hc with hc | rfl
        · exact absurd (hid.trans hx) (Nat.ne_of_lt (h.fresh c hc))
        · rfl
      · next hx =>
        rw [h.get?_eq_some_iff, or_and_right, or_iff_left]
        rintro ⟨rfl, hid⟩
        exact hx hid.symm

/-- **What adding a cut answers** is active then. It was active before, or it was inactive or
not in the pool. -/
theorem Wf.add_answer (h : p.Wf) (cut : Cut K) :
    (p.add cut).2.2.IsActive (p.add cut).1 ∧ if (p.add cut).2.1 then p.IsActive (p.add cut).1 else
      p.get? (p.add cut).1 = none ∨ ∃ c, p.get? (p.add cut).1 = some c ∧ c.status = .inactive := by
  have hadding := h.adding cut
  generalize p.add cut = answer at hadding
  cases hadding with
  | repeated c hc hs hlike => exact ⟨⟨c, hc, hs⟩, c, hc, hs⟩
  | broughtBack c hc hs hlike =>
    refine ⟨⟨revived c, ?_, ?_⟩, .inr ⟨c, hc, hs⟩⟩
    · rw [h.get?_activate, if_pos rfl, hc, Option.map_some]
    · rw [revived_of_inactive hs]
  | new q hunlike hread hnext hcount =>
    refine ⟨⟨p.stored cut, (hread _).trans (if_pos rfl), rfl⟩, .inl ?_⟩
    exact Option.eq_none_iff_forall_ne_some.mpr fun c hc => Nat.lt_irrefl _ (h.lt_of_get? hc)

end Rounds

end BranchAndCut.CutPool

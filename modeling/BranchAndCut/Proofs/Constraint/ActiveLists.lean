import BranchAndCut.Constraint.Registry
import BranchAndCut.Proofs.Arrays

/-! # The lists of active constraints

A registry keeps the active constraints of each family in a list, their indices in a
second one, and for each constraint its place in these lists. All three change together:
an entry is taken out by moving the last one into its place, whose own place is then
corrected. -/

namespace BranchAndCut.Registry

/-! ## Agreement of the lists -/

variable {r s : Registry} {id : ConsId} {h : HandlerId}

/-- The three lists agree: a constraint stands at a place of the list of its family
exactly if that place is recorded for it, next to its index. -/
structure Mirrors (r : Registry) : Prop where
  indexSize : r.activeIndex.size = r.active.size
  posSize : r.activePos.size = r.size
  family : ∀ id < r.size, r.handler id < r.active.size
  placed : ∀ h, Located (r.activeOf h) (fun id => id < r.size ∧ r.handler id = h) r.pos?
  indices : ∀ h, r.activeIndex.getD h #[] = (r.activeOf h).map r.index

theorem Mirrors.lt (hr : r.Mirrors) {p : Nat} (hp : r.pos? id = some p) : id < r.size := by
  by_contra hge
  rw [pos?, getD_of_size_le _ _ (hr.posSize ▸ Nat.not_lt.mp hge)] at hp
  cases hp

theorem Mirrors.lt_of_isActive (hr : r.Mirrors) (hid : r.isActive id = true) : id < r.size := by
  obtain ⟨p, hp⟩ := Option.isSome_iff_exists.mp hid
  exact hr.lt hp

/-- The active constraints of a family. -/
theorem Mirrors.mem_activeOf (hr : r.Mirrors) :
    id ∈ r.activeOf h ↔ r.isActive id = true ∧ r.handler id = h := by
  rw [Array.mem_iff_getElem?]
  constructor
  · rintro ⟨p, hp⟩
    obtain ⟨⟨-, hh⟩, hpos⟩ := (hr.placed h p id).mp hp
    exact ⟨Option.isSome_iff_exists.mpr ⟨p, hpos⟩, hh⟩
  · rintro ⟨hactive, hh⟩
    obtain ⟨p, hp⟩ := Option.isSome_iff_exists.mp hactive
    exact ⟨p, (hr.placed h p id).mpr ⟨⟨hr.lt hp, hh⟩, hp⟩⟩

theorem Mirrors.mem_allActive (hr : r.Mirrors) : id ∈ r.allActive ↔ r.isActive id = true := by
  unfold allActive
  rw [List.mem_flatMap]
  constructor
  · rintro ⟨ids, hids, hid⟩
    obtain ⟨h, hlt, rfl⟩ := Array.mem_iff_getElem.mp (Array.mem_toList_iff.mp hids)
    have hlist : r.activeOf h = r.active[h] := by simp [activeOf, hlt]
    exact (hr.mem_activeOf.mp (hlist ▸ Array.mem_toList_iff.mp hid)).1
  · intro hactive
    have hid := hr.mem_activeOf.mpr ⟨hactive, rfl⟩
    have hlt := hr.family id (hr.lt_of_isActive hactive)
    have hlist : r.activeOf (r.handler id) = r.active[r.handler id] := by simp [activeOf, hlt]
    exact ⟨_, Array.mem_toList_iff.mpr (Array.getElem_mem hlt), Array.mem_toList_iff.mpr (hlist ▸ hid)⟩

theorem Mirrors.nodup (hr : r.Mirrors) (h : HandlerId) : (r.activeOf h).toList.Nodup := by
  rw [List.nodup_iff_getElem?_ne_getElem?]
  intro i j hij hj heq
  rw [Array.length_toList] at hj
  rw [Array.getElem?_toList, Array.getElem?_toList, Array.getElem?_eq_getElem hj] at heq
  have hi := ((hr.placed h i _).mp heq).2
  have hj' := ((hr.placed h j _).mp (Array.getElem?_eq_getElem hj)).2
  rw [hi] at hj'
  exact Nat.ne_of_lt hij (Option.some.inj hj')

/-- Registries that differ in their lists of active constraints only. -/
structure Relisted (r s : Registry) : Prop where
  mirrors : s.Mirrors
  records : s.records = r.records
  path : s.path = r.path
  byNode : s.byNode = r.byNode
  families : s.active.size = r.active.size

theorem Relisted.refl (hr : r.Mirrors) : Relisted r r := ⟨hr, rfl, rfl, rfl, rfl⟩

theorem Relisted.trans {u : Registry} (h : Relisted r s) (h' : Relisted s u) : Relisted r u :=
  ⟨h'.mirrors, h'.records.trans h.records, h'.path.trans h.path, h'.byNode.trans h.byNode,
    h'.families.trans h.families⟩

theorem Relisted.size (h : Relisted r s) : s.size = r.size := congrArg Array.size h.records

theorem Relisted.record (h : Relisted r s) (id : ConsId) : s.record id = r.record id := by
  unfold Registry.record
  rw [h.records]

theorem Relisted.ofNode (h : Relisted r s) (node : NodeId) : s.ofNode node = r.ofNode node := by
  unfold Registry.ofNode
  rw [h.byNode]

/-! ## Activation -/

/-- One constraint is active from now on. -/
theorem activate_spec (hr : r.Mirrors) (hid : id < r.size) :
    Relisted r (r.activate id) ∧
      ∀ x, (r.activate id).isActive x = true ↔ r.isActive x = true ∨ x = id := by
  unfold activate
  by_cases hactive : r.isActive id = true
  · rw [if_pos hactive]
    refine ⟨.refl hr, fun x => ⟨.inl, ?_⟩⟩
    rintro (hx | rfl)
    · exact hx
    · exact hactive
  · rw [if_neg hactive]
    have hnone : r.pos? id = none := by simpa [isActive] using hactive
    have hfamily : (r.record id).handler < r.active.size := hr.family id hid
    have hpos : ∀ x, (r.activePos.setIfInBounds id (some (r.activeOf (r.handler id)).size)).getD x none =
        if x = id then some (r.activeOf (r.handler id)).size else r.pos? x := by
      intro x
      have hlt : id < r.activePos.size := hr.posSize ▸ hid
      rw [getD_setIfInBounds]
      simp [hlt, pos?]
    have hlist : ∀ h, (r.active.modify (r.handler id) (·.push id)).getD h #[] =
        if h = r.handler id then (r.activeOf h).push id else r.activeOf h := by
      intro h
      rw [getD_modify]
      simp [hr.family id hid, activeOf]
    refine ⟨⟨⟨?_, ?_, fun x hx => ?_, fun h => ?_, fun h => ?_⟩, rfl, rfl, rfl, Array.size_modify⟩,
      fun x => ?_⟩
    · simp [hr.indexSize]
    · simp [hr.posSize, size]
    · rw [Array.size_modify]
      exact hr.family x hx
    · show Located ((r.active.modify (r.handler id) (·.push id)).getD h #[]) _
        ((r.activePos.setIfInBounds id (some (r.activeOf (r.handler id)).size)).getD · none)
      rw [hlist, funext hpos]
      split
      · next hh =>
        rw [← hh]
        exact (hr.placed h).push ⟨hid, hh.symm⟩ hnone
      · next hh =>
        refine (hr.placed h).congr fun x hx => if_neg ?_
        rintro rfl
        exact hh hx.2.symm
    · show (r.activeIndex.modify (r.handler id) (·.push (r.record id).index)).getD h #[] =
        ((r.active.modify (r.handler id) (·.push id)).getD h #[]).map r.index
      rw [hlist, getD_modify, hr.indexSize, hr.indices]
      by_cases hh : h = r.handler id
      · rw [if_pos ⟨hh, hfamily⟩, if_pos hh, Array.map_push]
        rfl
      · rw [if_neg fun heq => hh heq.1, if_neg hh]
    · show ((r.activePos.setIfInBounds id (some (r.activeOf (r.handler id)).size)).getD x none).isSome = true ↔ _
      rw [hpos]
      by_cases hx : x = id
      · simp [hx]
      · simp [hx, isActive]

/-- The places after an entry is taken out. -/
theorem deactivate_eq (hr : r.Mirrors) {pos : Nat} (hp : r.pos? id = some pos) :
    ∃ activePos, r.deactivate id = (true, { r with
        active := r.active.modify (r.handler id) (swapRemove · pos)
        activeIndex := r.activeIndex.modify (r.handler id) (swapRemove · pos)
        activePos }) ∧
      activePos.size = r.activePos.size ∧
      ∀ x, activePos.getD x none = if x = id then none
        else if (r.activeOf (r.handler id))[(r.activeOf (r.handler id)).size - 1]? = some x then some pos
        else r.pos? x := by
  have hid := hr.lt hp
  have hplaced : (r.activeOf (r.handler id))[pos]? = some id := (hr.placed _ _ _).mpr ⟨⟨hid, rfl⟩, hp⟩
  obtain ⟨hlt, -⟩ := Array.getElem?_eq_some_iff.mp hplaced
  have hread : ∀ (activeIndex : Array (Array Nat)) (activePos : Array (Option Nat)),
      ({ r with
        active := r.active.modify (r.handler id) (swapRemove · pos), activeIndex, activePos } :
          Registry).activeOf (r.handler id) = swapRemove (r.activeOf (r.handler id)) pos := by
    intro _ _
    unfold activeOf
    rw [getD_modify, if_pos ⟨rfl, hr.family id hid⟩]
  have hgone : ∀ x, (r.activePos.setIfInBounds id none).getD x none =
      if x = id then none else r.pos? x := by
    intro x
    rw [getD_setIfInBounds]
    by_cases hx : x = id
    · simp [hx, hr.posSize, hid]
    · simp [hx, pos?]
  unfold deactivate
  rw [hp]
  dsimp only
  rw [hread, getElem?_swapRemove hlt, if_pos rfl]
  by_cases hlast : pos + 1 < (r.activeOf (r.handler id)).size
  · rw [if_pos hlast]
    have hback : (r.activeOf (r.handler id)).size - 1 < (r.activeOf (r.handler id)).size := by omega
    rw [Array.getElem?_eq_getElem hback]
    generalize hmoved : (r.activeOf (r.handler id))[(r.activeOf (r.handler id)).size - 1] = moved
    have hmoved : (r.activeOf (r.handler id))[(r.activeOf (r.handler id)).size - 1]? = some moved := by
      rw [Array.getElem?_eq_getElem hback, hmoved]
    obtain ⟨⟨hmlt, -⟩, hmpos⟩ := (hr.placed _ _ _).mp hmoved
    have hne : moved ≠ id := by
      rintro rfl
      rw [hp] at hmpos
      have := Option.some.inj hmpos
      omega
    refine ⟨_, rfl, by simp, fun x => ?_⟩
    rw [getD_setIfInBounds, hgone]
    by_cases hx : x = id
    · have hidm : ¬ id = moved := fun heq => hne heq.symm
      simp [hx, hidm]
    · by_cases hxm : x = moved
      · simp [hxm, hr.posSize, hmlt, hne]
      · have hmx : ¬ moved = x := fun heq => hxm heq.symm
        simp [hx, hxm, hmx]
  · rw [if_neg hlast]
    have hpos : (r.activeOf (r.handler id)).size - 1 = pos := by omega
    refine ⟨_, rfl, by simp, fun x => ?_⟩
    rw [hpos, hplaced, hgone]
    by_cases hx : x = id
    · simp [hx]
    · have hne : ¬ id = x := fun heq => hx heq.symm
      simp [hx, hne]

/-- One constraint is no longer active. -/
theorem deactivate_spec (hr : r.Mirrors) (id : ConsId) :
    (r.deactivate id).1 = r.isActive id ∧ Relisted r (r.deactivate id).2 ∧
      ∀ x, (r.deactivate id).2.isActive x = true ↔ r.isActive x = true ∧ x ≠ id := by
  cases hp : r.pos? id with
  | none =>
    have heq : r.deactivate id = (false, r) := by
      unfold deactivate
      rw [hp]
    have hnot : r.isActive id = false := by
      unfold isActive
      rw [hp]
      rfl
    rw [heq]
    refine ⟨hnot.symm, .refl hr, fun x => ⟨fun hx => ⟨hx, ?_⟩, And.left⟩⟩
    rintro rfl
    rw [hnot] at hx
    cases hx
  | some pos =>
    obtain ⟨activePos, heq, hsize, hpos⟩ := deactivate_eq hr hp
    rw [heq]
    have hid := hr.lt hp
    have hplaced : (r.activeOf (r.handler id))[pos]? = some id := (hr.placed _ _ _).mpr ⟨⟨hid, rfl⟩, hp⟩
    obtain ⟨hlt, -⟩ := Array.getElem?_eq_some_iff.mp hplaced
    have hlist : ∀ h, (r.active.modify (r.handler id) (swapRemove · pos)).getD h #[] =
        if h = r.handler id then swapRemove (r.activeOf h) pos else r.activeOf h := by
      intro h
      rw [getD_modify]
      simp [hr.family id hid, activeOf]
    refine ⟨by simp [isActive, hp], ⟨⟨?_, ?_, fun x hx => ?_, fun h => ?_, fun h => ?_⟩, rfl, rfl, rfl,
      Array.size_modify⟩, fun x => ?_⟩
    · simp [hr.indexSize]
    · exact hsize.trans hr.posSize
    · rw [Array.size_modify]
      exact hr.family x hx
    · show Located ((r.active.modify (r.handler id) (swapRemove · pos)).getD h #[]) _ (activePos.getD · none)
      rw [hlist, funext hpos]
      split
      · next hh =>
        rw [← hh] at hplaced ⊢
        exact (hr.placed h).swapRemove hplaced
      · next hh =>
        refine (hr.placed h).congr fun x hx => ?_
        have hne : x ≠ id := by
          rintro rfl
          exact hh hx.2.symm
        have hlast : (r.activeOf (r.handler id))[(r.activeOf (r.handler id)).size - 1]? ≠ some x := fun hl =>
          hh (hx.2.symm.trans ((hr.placed _ _ _).mp hl).1.2)
        rw [if_neg hne, if_neg hlast]
    · show (r.activeIndex.modify (r.handler id) (swapRemove · pos)).getD h #[] =
        ((r.active.modify (r.handler id) (swapRemove · pos)).getD h #[]).map r.index
      rw [hlist, getD_modify, hr.indexSize, hr.indices]
      by_cases hh : h = r.handler id
      · rw [if_pos ⟨hh, hr.family id hid⟩, if_pos hh, map_swapRemove]
      · rw [if_neg fun heq => hh heq.1, if_neg hh]
    · show (activePos.getD x none).isSome = true ↔ _
      rw [hpos]
      by_cases hx : x = id
      · simp [hx]
      · rw [if_neg hx]
        split
        · next hlast =>
          obtain ⟨-, hxpos⟩ := (hr.placed _ _ _).mp hlast
          simp [isActive, hxpos, hx]
        · simp [isActive, hx]

end BranchAndCut.Registry

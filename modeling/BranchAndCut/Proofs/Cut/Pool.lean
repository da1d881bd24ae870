import BranchAndCut.Cut.Pool
import BranchAndCut.Proofs.Arrays

/-! # The cuts that belong into the relaxation

A pool gives its cuts distinct numbers, and only its active cuts are to be rows of the
relaxation. Each operation tells which cuts it made active or set aside. -/

namespace BranchAndCut.CutPool

variable {K : Type} {p : CutPool K} {id : Nat} {row : Row K}

/-- The numbers of the cuts are distinct, and have been given out. -/
structure Wf (p : CutPool K) : Prop where
  nodup : (p.cuts.toList.map PooledCut.id).Nodup
  fresh : ∀ c ∈ p.cuts, c.id < p.nextId

/-- An active cut and its row. -/
def Shows (p : CutPool K) (id : Nat) (row : Row K) : Prop :=
  ∃ c ∈ p.cuts, c.id = id ∧ c.status = .active ∧ c.cut.row = row

theorem Wf.unique (h : p.Wf) {c c' : PooledCut K} (hc : c ∈ p.cuts) (hc' : c' ∈ p.cuts)
    (hid : c.id = c'.id) : c = c' :=
  List.inj_on_of_nodup_map h.nodup (Array.mem_toList_iff.mpr hc) (Array.mem_toList_iff.mpr hc') hid

theorem Wf.shows_unique (h : p.Wf) {row' : Row K} (hrow : p.Shows id row) (hrow' : p.Shows id row') :
    row = row' := by
  obtain ⟨c, hc, hid, -, rfl⟩ := hrow
  obtain ⟨c', hc', hid', -, rfl⟩ := hrow'
  rw [h.unique hc hc' (hid.trans hid'.symm)]

theorem get?_some {c : PooledCut K} (hget : p.get? id = some c) : c ∈ p.cuts ∧ c.id = id := by
  have hid := Array.find?_some hget
  exact ⟨Array.mem_of_find?_eq_some hget, beq_iff_eq.mp hid⟩

theorem Wf.get?_eq (h : p.Wf) {c : PooledCut K} (hc : c ∈ p.cuts) : p.get? c.id = some c := by
  cases hget : p.get? c.id with
  | none => exact absurd (beq_self_eq_true c.id) (Array.find?_eq_none.mp hget c hc)
  | some c' =>
    obtain ⟨hc', hid⟩ := get?_some hget
    rw [h.unique hc' hc hid]

/-- Cuts that change, but keep their numbers. -/
theorem Wf.map (h : p.Wf) {f : PooledCut K → PooledCut K} (hf : ∀ c, (f c).id = c.id) :
    Wf { p with cuts := p.cuts.map f } := by
  refine ⟨?_, fun c hc => ?_⟩
  · rw [Array.toList_map, List.map_map]
    have hsame : PooledCut.id ∘ f = (PooledCut.id : PooledCut K → Nat) := funext hf
    rw [hsame]
    exact h.nodup
  · obtain ⟨c', hc', rfl⟩ := Array.mem_map.mp hc
    rw [hf]
    exact h.fresh c' hc'

theorem Wf.modifyCut_eq (h : p.Wf) (id : Nat) (f : PooledCut K → PooledCut K) :
    p.modifyCut id f = { p with cuts := p.cuts.map fun c => if c.id = id then f c else c } := by
  unfold modifyCut
  cases hfind : p.cuts.findIdx? (·.id == id) with
  | none =>
    have hnone := Array.findIdx?_eq_none_iff.mp hfind
    have hsame : (p.cuts.map fun c => if c.id = id then f c else c) = p.cuts := by
      refine (Array.map_congr_left fun c hc => ?_).trans (Array.map_id _)
      exact if_neg fun hid => by simpa [hid] using hnone c hc
    rw [hsame]
  | some i =>
    obtain ⟨hlt, hid, -⟩ := Array.findIdx?_eq_some_iff_getElem.mp hfind
    have heq : p.cuts.modify i f = p.cuts.map fun c => if c.id = id then f c else c := by
      refine Array.ext (by simp) fun k hk hk' => ?_
      have hksize : k < p.cuts.size := by simpa using hk
      rw [Array.getElem_modify, Array.getElem_map]
      by_cases hki : i = k
      · subst hki
        rw [if_pos rfl, if_pos (beq_iff_eq.mp hid)]
      · rw [if_neg hki, if_neg fun heq => hki ?_]
        have hnodup := h.nodup
        rw [List.nodup_iff_injective_get] at hnodup
        have hinj := @hnodup ⟨i, by simpa using hlt⟩ ⟨k, by simpa using hksize⟩
          (by simpa using (beq_iff_eq.mp hid).trans heq.symm)
        exact congrArg Fin.val hinj
    exact congrArg (fun cuts => { p with cuts }) heq

/-- The cut is in the pool, active or not. -/
def Pooled (p : CutPool K) (id : Nat) : Prop := ∃ c ∈ p.cuts, c.id = id ∧ c.status ≠ .deleted

/-- A pool in which the cuts in `ids` became active. -/
structure Revives (p : CutPool K) (ids : List Nat) (p' : CutPool K) : Prop where
  wf : p'.Wf
  other : ∀ {x}, x ∉ ids → ∀ row, p'.Shows x row ↔ p.Shows x row
  revived : ∀ x ∈ ids, p.Pooled x → ∃ row, p'.Shows x row
  pooled : ∀ {x}, p.Pooled x → p'.Pooled x
  kept : ∀ {x row}, p.Shows x row → p'.Shows x row

/-- Bringing a cut back. -/
theorem Wf.activate (h : p.Wf) (id : Nat) : Revives p [id] (p.activate id).2 := by
  unfold CutPool.activate
  have hsame : (∀ c ∈ p.cuts, c.id = id → c.status ≠ .inactive) → Revives p [id] p := fun hnot => by
    refine ⟨h, fun _ _ => Iff.rfl, fun x hx hpooled => ?_, fun hx => hx, fun hx => hx⟩
    obtain rfl := List.mem_singleton.mp hx
    obtain ⟨c, hc, hid, hs⟩ := hpooled
    cases hstatus : c.status with
    | active => exact ⟨_, c, hc, hid, hstatus, rfl⟩
    | inactive => exact (hnot c hc hid hstatus).elim
    | deleted => exact (hs hstatus).elim
  cases hget : p.get? id with
  | none =>
    refine hsame fun c hc hid => ?_
    rw [← hid, h.get?_eq hc] at hget
    cases hget
  | some c =>
    obtain ⟨hc, rfl⟩ := get?_some hget
    dsimp only
    by_cases hs : c.status = .inactive
    · rw [if_pos hs, h.modifyCut_eq]
      have hmap := h.map (f := fun x => if x.id = c.id then { x with status := .active, slackCount := 0 } else x)
        fun x => by split <;> rfl
      have hread : ∀ {x}, x ∈ p.cuts →
          (if x.id = c.id then { x with status := .active, slackCount := 0 } else x) ∈
            p.cuts.map fun x => if x.id = c.id then { x with status := .active, slackCount := 0 } else x :=
        fun hx => Array.mem_map.mpr ⟨_, hx, rfl⟩
      have hkept : ∀ {x row}, p.Shows x row → Shows { p with
          cuts := p.cuts.map fun x => if x.id = c.id then { x with status := .active, slackCount := 0 } else x,
          numActive := p.numActive + 1 } x row := by
        rintro x row ⟨y, hy, rfl, hactive, rfl⟩
        refine ⟨_, hread hy, ?_, ?_, ?_⟩ <;> split <;> first | rfl | exact hactive
      refine ⟨⟨hmap.nodup, hmap.fresh⟩, fun {x} hx row => ⟨?_, hkept⟩, fun x hx _ => ?_, ?_, hkept⟩
      · rintro ⟨y, hy, rfl, hactive, rfl⟩
        obtain ⟨z, hz, rfl⟩ := Array.mem_map.mp hy
        by_cases hzc : z.id = c.id
        · rw [if_pos hzc, List.mem_singleton] at hx
          exact (hx hzc).elim
        · rw [if_neg hzc] at hactive ⊢
          exact ⟨z, hz, rfl, hactive, rfl⟩
      · obtain rfl := List.mem_singleton.mp hx
        have hmem := hread hc
        rw [if_pos rfl] at hmem
        exact ⟨_, _, hmem, rfl, rfl, rfl⟩
      · rintro x ⟨y, hy, rfl, hpooled⟩
        refine ⟨_, hread hy, ?_, ?_⟩
        · split <;> rfl
        · split
          · nofun
          · exact hpooled
    · rw [if_neg hs]
      exact hsame fun y hy hid => h.unique hy hc hid ▸ hs

theorem Wf.foldl_activate (h : p.Wf) (ids : List Nat) :
    Revives p ids (ids.foldl (fun p id => (p.activate id).2) p) := by
  induction ids generalizing p with
  | nil => exact ⟨h, fun _ _ => Iff.rfl, fun x hx => (List.not_mem_nil hx).elim, fun hx => hx, fun hx => hx⟩
  | cons i ids ih =>
    have hfirst := h.activate i
    have hrest := ih hfirst.wf
    refine ⟨hrest.wf, fun {x} hx row => ?_, fun x hx hpooled => ?_, fun hx => hrest.pooled (hfirst.pooled hx),
      fun hx => hrest.kept (hfirst.kept hx)⟩
    · rw [List.mem_cons, not_or] at hx
      exact (hrest.other hx.2 row).trans (hfirst.other (fun hmem => hx.1 (List.mem_singleton.mp hmem)) row)
    · by_cases hmem : x ∈ ids
      · exact hrest.revived x hmem (hfirst.pooled hpooled)
      · obtain rfl := (List.mem_cons.mp hx).resolve_right hmem
        obtain ⟨row, hrow⟩ := hfirst.revived x List.mem_cons_self hpooled
        exact ⟨row, hrest.kept hrow⟩

/-! ## What holds of all cuts -/

/-- The rows of all cuts of the pool, active or not, satisfy a condition. -/
def All (V : Row K → Prop) (p : CutPool K) : Prop := ∀ c ∈ p.cuts, V c.cut.row

variable {V : Row K → Prop}

theorem All.modifyCut (h : p.All V) (id : Nat) {f : PooledCut K → PooledCut K} (hf : ∀ c, (f c).cut = c.cut) :
    (p.modifyCut id f).All V := by
  unfold CutPool.modifyCut
  split
  · intro c hc
    obtain ⟨k, hk, rfl⟩ := Array.mem_iff_getElem.mp hc
    rw [Array.getElem_modify]
    split
    · rw [hf]
      exact h _ (Array.getElem_mem _)
    · exact h _ (Array.getElem_mem _)
  · exact h

theorem All.activate (h : p.All V) (id : Nat) : (p.activate id).2.All V := by
  unfold CutPool.activate
  split
  · exact h
  · split
    · exact h.modifyCut id fun _ => rfl
    · exact h

theorem All.foldl_activate (h : p.All V) (ids : List Nat) :
    (ids.foldl (fun p id => (p.activate id).2) p).All V := by
  induction ids generalizing p with
  | nil => exact h
  | cons i ids ih => exact ih (h.activate i)

section Operations

variable [Scalar K]

/-- What adding a cut comes to: a cut like it is active already, or one becomes active. -/
def Adds (p : CutPool K) : Nat × Bool × CutPool K → Prop
  | (_, true, p') => Revives p [] p'
  | (id, false, p') => Revives p [id] p' ∧ ∃ row, p'.Shows id row

/-- **Adding a cut.** -/
theorem Wf.add (h : p.Wf) (cut : Cut K) : p.Adds (p.add cut) := by
  unfold CutPool.add
  cases hfind : p.cuts.find? fun c => c.status != .deleted && parallel cut.row c.cut.row with
  | some c =>
    have hc := Array.mem_of_find?_eq_some hfind
    have hlive : c.status ≠ .deleted := by
      have hcond := Array.find?_some hfind
      rw [Bool.and_eq_true, bne_iff_ne] at hcond
      exact hcond.1
    dsimp only
    by_cases hs : c.status = .active
    · rw [if_pos hs]
      exact ⟨⟨h.nodup, h.fresh⟩, fun _ _ => Iff.rfl, nofun, fun hx => hx, fun hx => hx⟩
    · rw [if_neg hs]
      have hrevives := h.activate c.id
      exact ⟨hrevives, hrevives.revived _ List.mem_cons_self ⟨c, hc, rfl, hlive⟩⟩
  | none =>
    have hnew : ∀ c ∈ p.cuts, c.id ≠ p.nextId := fun c hc => Nat.ne_of_lt (h.fresh c hc)
    have hold : ∀ {x row}, p.Shows x row → Shows { p with
        cuts := p.cuts.push { cut, id := p.nextId, addedRound := p.round, lastBindingRound := p.round } } x row :=
      fun ⟨c, hc, hrest⟩ => ⟨c, Array.mem_push_of_mem _ hc, hrest⟩
    refine ⟨⟨⟨?_, fun c hc => ?_⟩, fun {x} hx row => ⟨?_, hold⟩, fun x hx _ => ?_, ?_, hold⟩,
      ⟨_, _, Array.mem_push_self, rfl, rfl, rfl⟩⟩
    · rw [Array.toList_push, List.map_append]
      refine List.nodup_append.mpr ⟨h.nodup, List.nodup_singleton _, fun a ha b hb => ?_⟩
      obtain ⟨c, hc, rfl⟩ := List.mem_map.mp ha
      rw [List.mem_singleton.mp hb]
      exact hnew c (Array.mem_toList_iff.mp hc)
    · rcases Array.mem_push.mp hc with hc | rfl
      · exact Nat.lt_succ_of_lt (h.fresh c hc)
      · exact Nat.lt_succ_self _
    · rintro ⟨c, hc, hid, hrest⟩
      rcases Array.mem_push.mp hc with hc | rfl
      · exact ⟨c, hc, hid, hrest⟩
      · exact (hx (List.mem_singleton.mpr hid.symm)).elim
    · obtain rfl := List.mem_singleton.mp hx
      exact ⟨_, _, Array.mem_push_self, rfl, rfl, rfl⟩
    · rintro x ⟨c, hc, hrest⟩
      exact ⟨c, Array.mem_push_of_mem _ hc, hrest⟩

theorem All.add (h : p.All V) {cut : Cut K} (hcut : V cut.row) : (p.add cut).2.2.All V := by
  unfold CutPool.add
  split
  · split
    · exact h
    · exact h.activate _
  · intro c hc
    rcases Array.mem_push.mp hc with hc | rfl
    · exact h c hc
    · exact hcut

/-- **Separating the cuts set aside** makes those active that it finds. -/
theorem Wf.separateInactive (h : p.Wf) (x : Array K) (minEfficacy : K) :
    Revives p (p.separateInactive x minEfficacy).1 (p.separateInactive x minEfficacy).2 ∧
      ∀ id ∈ (p.separateInactive x minEfficacy).1, ∃ row, (p.separateInactive x minEfficacy).2.Shows id row := by
  have hrevives := h.foldl_activate (p.separateInactive x minEfficacy).1
  refine ⟨hrevives, fun id hid => hrevives.revived id hid ?_⟩
  obtain ⟨c, hc, rfl⟩ := List.mem_map.mp hid
  obtain ⟨hc, hcond⟩ := List.mem_filter.mp hc
  rw [Bool.and_eq_true, beq_iff_eq] at hcond
  exact ⟨c, Array.mem_toList_iff.mp hc, rfl, by rw [hcond.1]; nofun⟩

omit [Scalar K] in
theorem age_eq (round : Nat) (binding : List Nat) (c : PooledCut K) :
    (age round binding c).id = c.id ∧ (age round binding c).status = c.status ∧
      (age round binding c).cut = c.cut := by
  unfold age
  split
  · exact ⟨rfl, rfl, rfl⟩
  · split
    · exact ⟨rfl, rfl, rfl⟩
    · split <;> exact ⟨rfl, rfl, rfl⟩

/-- **A cleanup** sets cuts aside. -/
theorem Wf.cleanup (h : p.Wf) : p.cleanup.2.Wf ∧
    ∀ x row, p.cleanup.2.Shows x row ↔ p.Shows x row ∧ x ∉ p.cleanup.1 := by
  have hstale : ∀ c ∈ p.cuts, c.id ∈ p.cleanup.1 ↔ p.isStale c = true := by
    intro c hc
    refine ⟨fun hmem => ?_, fun hcond => ?_⟩
    · obtain ⟨c', hc', hid⟩ := List.mem_map.mp hmem
      obtain ⟨hc', hcond⟩ := List.mem_filter.mp hc'
      rw [← h.unique (Array.mem_toList_iff.mp hc') hc hid]
      exact hcond
    · exact List.mem_map_of_mem (List.mem_filter.mpr ⟨Array.mem_toList_iff.mpr hc, hcond⟩)
  have hmap := h.map (f := fun c => if p.isStale c then { c with status := .inactive } else c)
    fun c => by split <;> rfl
  -- dropping deleted cuts takes nothing from the active ones
  have hcuts : ∃ keep : PooledCut K → Bool, (∀ c : PooledCut K, c.status = .active → keep c = true) ∧
      p.cleanup.2.cuts = (p.cuts.map fun c =>
        if p.isStale c then { c with status := .inactive } else c).filter keep := by
    unfold CutPool.cleanup
    dsimp only
    split
    · exact ⟨fun c => c.status != .deleted, fun c hc => by simp [hc], rfl⟩
    · exact ⟨fun _ => true, fun _ _ => rfl, (Array.filter_eq_self.mpr fun _ _ => rfl).symm⟩
  obtain ⟨keep, hkeep, hcuts⟩ := hcuts
  have hmem : ∀ c, c ∈ p.cleanup.2.cuts ↔ (∃ y ∈ p.cuts,
      (if p.isStale y then { y with status := .inactive } else y) = c) ∧ keep c = true := fun c => by
    rw [hcuts, Array.mem_filter, Array.mem_map]
  refine ⟨⟨?_, fun c hc => ?_⟩, fun x row => ⟨?_, ?_⟩⟩
  · rw [hcuts, Array.toList_filter]
    exact hmap.nodup.sublist (List.filter_sublist.map _)
  · obtain ⟨⟨y, hy, rfl⟩, -⟩ := (hmem c).mp hc
    have hfresh : y.id < p.cleanup.2.nextId := h.fresh y hy
    split <;> exact hfresh
  · rintro ⟨c, hc, rfl, hactive, rfl⟩
    obtain ⟨⟨y, hy, rfl⟩, -⟩ := (hmem c).mp hc
    by_cases hcond : p.isStale y = true
    · rw [if_pos hcond] at hactive
      cases hactive
    · rw [if_neg hcond] at hactive ⊢
      exact ⟨⟨y, hy, rfl, hactive, rfl⟩, fun hmem => hcond ((hstale y hy).mp hmem)⟩
  · rintro ⟨⟨y, hy, rfl, hactive, rfl⟩, hnot⟩
    have hcond : ¬ p.isStale y = true := fun hcond => hnot ((hstale y hy).mpr hcond)
    exact ⟨y, (hmem y).mpr ⟨⟨y, hy, if_neg hcond⟩, hkeep y hactive⟩, rfl, hactive, rfl⟩

/-- **Counting a round** may set cuts aside. -/
theorem Wf.updateActivity (h : p.Wf) (duals : List (Nat × K)) : (p.updateActivity duals).2.Wf ∧
    ∀ x row, (p.updateActivity duals).2.Shows x row ↔ p.Shows x row ∧ x ∉ (p.updateActivity duals).1 := by
  unfold CutPool.updateActivity
  generalize hround : p.round + 1 = round
  generalize ((duals.filter fun x => decide (1e-8 < Scalar.abs x.2)).map Prod.fst) = binding
  have haged : Wf { p with round, cuts := p.cuts.map (age round binding) } := by
    have hmap := h.map (f := age round binding) fun c => (age_eq round binding c).1
    exact ⟨hmap.nodup, hmap.fresh⟩
  have hshows : ∀ x row, Shows { p with round, cuts := p.cuts.map (age round binding) } x row ↔ p.Shows x row := by
    intro x row
    constructor
    · rintro ⟨c, hc, rfl, hactive, rfl⟩
      obtain ⟨y, hy, rfl⟩ := Array.mem_map.mp hc
      obtain ⟨hid, hstatus, hcut⟩ := age_eq round binding y
      exact ⟨y, hy, hid.symm, hstatus.symm.trans hactive, by rw [hcut]⟩
    · rintro ⟨y, hy, rfl, hactive, rfl⟩
      obtain ⟨hid, hstatus, hcut⟩ := age_eq round binding y
      exact ⟨_, Array.mem_map_of_mem hy, hid, hstatus.trans hactive, by rw [hcut]⟩
  dsimp only
  split
  · obtain ⟨hwf, hcleanup⟩ := haged.cleanup
    exact ⟨hwf, fun x row => (hcleanup x row).trans (and_congr_left fun _ => hshows x row)⟩
  · exact ⟨haged, fun x row => (hshows x row).trans ⟨fun hs => ⟨hs, List.not_mem_nil⟩, And.left⟩⟩

theorem All.cleanup (h : p.All V) : p.cleanup.2.All V := by
  have hmap : ∀ c ∈ p.cuts.map fun c => if p.isStale c then { c with status := .inactive } else c, V c.cut.row := by
    intro c hc
    obtain ⟨y, hy, rfl⟩ := Array.mem_map.mp hc
    split <;> exact h y hy
  intro c hc
  unfold CutPool.cleanup at hc
  dsimp only at hc
  split at hc
  · exact hmap c (Array.mem_filter.mp hc).1
  · exact hmap c hc

theorem All.updateActivity (h : p.All V) (duals : List (Nat × K)) : (p.updateActivity duals).2.All V := by
  unfold CutPool.updateActivity
  generalize p.round + 1 = round
  generalize ((duals.filter fun x => decide (1e-8 < Scalar.abs x.2)).map Prod.fst) = binding
  have haged : All V { p with round, cuts := p.cuts.map (age round binding) } := by
    intro c hc
    obtain ⟨y, hy, rfl⟩ := Array.mem_map.mp hc
    rw [(age_eq round binding y).2.2]
    exact h y hy
  dsimp only
  split
  · exact haged.cleanup
  · exact haged

/-! ## What the pool refuses -/

/-- A cut of the pool, active or set aside, is nearly parallel to the row. -/
def Repeats (p : CutPool K) (row : Row K) : Prop :=
  ∃ c ∈ p.cuts, c.status ≠ .deleted ∧ parallel row c.cut.row = true

theorem Wf.activate_repeats (h : p.Wf) (id : Nat) : (p.activate id).2.Repeats row ↔ p.Repeats row := by
  unfold CutPool.activate
  split
  · exact Iff.rfl
  · next c hget =>
    split
    · next hs =>
      obtain ⟨hc, rfl⟩ := get?_some hget
      rw [h.modifyCut_eq]
      unfold Repeats
      constructor
      · rintro ⟨y, hy, hlive, hparallel⟩
        obtain ⟨z, hz, rfl⟩ := Array.mem_map.mp hy
        by_cases hzc : z.id = c.id
        · rw [if_pos hzc] at hparallel
          exact ⟨z, hz, by rw [h.unique hz hc hzc, hs]; nofun, hparallel⟩
        · rw [if_neg hzc] at hlive hparallel
          exact ⟨z, hz, hlive, hparallel⟩
      · rintro ⟨z, hz, hlive, hparallel⟩
        refine ⟨_, Array.mem_map_of_mem hz, ?_, ?_⟩
        · split
          · nofun
          · exact hlive
        · split <;> exact hparallel
    · exact Iff.rfl

theorem Wf.foldl_activate_repeats (h : p.Wf) (ids : List Nat) :
    (ids.foldl (fun p id => (p.activate id).2) p).Repeats row ↔ p.Repeats row := by
  induction ids generalizing p with
  | nil => exact Iff.rfl
  | cons id ids ih => exact (ih (h.activate id).wf).trans (h.activate_repeats id)

/-- **A cut that is refused** repeats one of the pool, and leaves what the pool repeats. One
that is not refused is found under its number. -/
theorem Wf.add_cases (h : p.Wf) (cut : Cut K) :
    (∃ id c, (p.add cut).1 = id ∧ (p.add cut).2.1 = false ∧ (p.add cut).2.2.get? id = some c ∧ c.cut = cut) ∨
      p.Repeats cut.row ∧ ∀ row, (p.add cut).2.2.Repeats row ↔ p.Repeats row := by
  have hwf := h.add cut
  unfold CutPool.add at hwf ⊢
  cases hfind : p.cuts.find? fun c => c.status != .deleted && parallel cut.row c.cut.row with
  | some c =>
    have hcond := Array.find?_some hfind
    rw [Bool.and_eq_true, bne_iff_ne] at hcond
    refine .inr ⟨⟨c, Array.mem_of_find?_eq_some hfind, hcond⟩, fun row => ?_⟩
    dsimp only
    split
    · exact Iff.rfl
    · exact h.activate_repeats c.id
  | none =>
    rw [hfind] at hwf
    exact .inl ⟨_, _, rfl, rfl, hwf.1.wf.get?_eq Array.mem_push_self, rfl⟩

end Operations

end BranchAndCut.CutPool

import BranchAndCut.Proofs.Solve.Footing

/-! # Rows come and go

The rows of a constraint enter and leave the relaxation together, the rows of a cut are
put in when the cut becomes active, and taken out before the solve that follows its
retirement. -/

namespace BranchAndCut.Search

variable {K σ : Type} [Scalar K] {sv : Solver K σ} {F : Footing sv} {s t : Search K σ}
  {active : ConsId → Prop} {pending : List Nat}

/-! ## Rows of constraints -/

/-- The rows of a constraint are put in. -/
theorem Tracks.putRows {c : Contents K} (ht : s.Tracks c pending) (hs : s.handlers.custom = #[])
    (hr : s.Relaxes t) (id : ConsId) (hlp : t.lpRows = s.lpRows.insert id (s.rows id).length)
    (hstale : t.staleCutRows = s.staleCutRows) :
    t.Tracks (c.addRows (Contents.keyed id (s.rows id) 0)) pending := by
  -- the constraint has no rows beyond its own
  have hbeyond : ∀ k, ¬ k < (s.rows id).length → c.row (.constraint id k) = none := fun k hk => by
    rw [ht.constraint, List.getElem?_eq_none (Nat.not_lt.mp hk), ite_self]
  have hmem : ∀ x, x ∈ t.lpRows ↔ x ∈ s.lpRows ∨ x = id := fun x => by
    rw [hlp, Std.TreeMap.mem_insert, Nat.compare_eq_eq, or_comm, eq_comm (a := id)]
  have hproblem : t.problem = s.problem := hr.part Search.problem fun _ _ _ _ => rfl
  have hpool : t.pool = s.pool := hr.part Search.pool fun _ _ _ _ => rfl
  refine ⟨?_, fun x k => ?_, fun x n hn => ?_, fun x hx row => ?_, hstale ▸ ht.stale⟩
  · rw [Contents.addRows_costs, hproblem]
    exact ht.columns
  · rw [hr.rows hs]
    by_cases hx : x = id
    · subst hx
      rw [Contents.addRows_keyed, if_pos ((hmem x).mpr (.inr rfl)), Nat.zero_add]
      by_cases hk : k < (s.rows x).length
      · rw [if_pos ⟨Nat.zero_le k, hk⟩, Nat.sub_zero]
      · rw [if_neg fun hlt => hk hlt.2, hbeyond k hk, List.getElem?_eq_none (Nat.not_lt.mp hk)]
    · rw [Contents.addRows_keyed_other _ _ _ _ fun k' heq => hx (RowKey.constraint.inj heq).1, ht.constraint]
      simp [hmem, hx]
  · rw [hr.rows hs]
    rw [hlp, Std.TreeMap.getElem?_insert] at hn
    split at hn
    · next heq =>
      rw [← Nat.compare_eq_eq.mp heq]
      exact (Option.some.inj hn).symm
    · exact ht.count x n hn
  · rw [Contents.addRows_keyed_other _ _ _ _ fun _ => RowKey.noConfusion, hpool, hstale]
    exact ht.cut x hx row

/-- The rows of a constraint are taken out. -/
theorem Tracks.takeRows {c : Contents K} (ht : s.Tracks c pending) (hs : s.handlers.custom = #[])
    (hr : s.Relaxes t) {id : ConsId} {n : Nat} (hn : s.lpRows[id]? = some n)
    (hlp : t.lpRows = s.lpRows.erase id) (hstale : t.staleCutRows = s.staleCutRows) :
    t.Tracks (c.removeRows ((List.range n).map (.constraint id))) pending := by
  have hmem : ∀ x, x ∈ t.lpRows ↔ x ∈ s.lpRows ∧ x ≠ id := fun x => by
    rw [hlp, Std.TreeMap.mem_erase, Ne, Nat.compare_eq_eq, and_comm, eq_comm (a := id)]
  have hproblem : t.problem = s.problem := hr.part Search.problem fun _ _ _ _ => rfl
  have hpool : t.pool = s.pool := hr.part Search.pool fun _ _ _ _ => rfl
  refine ⟨?_, fun x k => ?_, fun x m hm => ?_, fun x hx row => ?_, hstale ▸ ht.stale⟩
  · rw [Contents.removeRows_costs, hproblem]
    exact ht.columns
  · rw [Contents.removeRows_row, ht.constraint, hr.rows hs]
    by_cases hx : x = id
    · subst hx
      have hlength := ht.count x n hn
      by_cases hk : k < n
      · simp [hk, hmem]
      · rw [List.getElem?_eq_none (by omega)]
        simp
    · simp [hx, Ne.symm hx, hmem]
  · rw [hr.rows hs]
    rw [hlp, Std.TreeMap.getElem?_erase] at hm
    split at hm
    · cases hm
    · exact ht.count x m hm
  · rw [Contents.removeRows_row, if_neg (by simp), hpool, hstale]
    exact ht.cut x hx row

/-- **Adding the rows of a constraint.** -/
theorem Carries.addConsRows (h : Carries F s active pending) (id : ConsId) :
    Ensures (addConsRows sv id) s
      (fun _ t => s.Relaxes t ∧ Carries F t (fun x => active x ∨ x = id) pending) (Fails F) := by
  obtain ⟨c, hw, ht⟩ := h.tracks
  unfold Search.addConsRows
  refine .bind (.get ?_)
  change Ensures (if (!(s.rows id).isEmpty) = true then _ else _) _ _ _
  by_cases hrows : s.rows id = []
  · rw [hrows]
    refine .pure ⟨.refl s, h.builtIn, h.tracks, fun x => (h.lists x).trans ⟨fun hx => ⟨.inl hx.1, hx.2⟩, ?_⟩⟩
    rintro ⟨hx | rfl, hne⟩
    · exact ⟨hx, hne⟩
    · exact (hne hrows).elim
  · rw [if_pos (by simpa using hrows)]
    have hkeys : ∀ x row, (RowKey.cut x, row) ∈ Contents.keyed id (s.rows id) 0 → F.Admits row := fun x row hmem => by
      obtain ⟨_, -, heq⟩ := List.mem_map.mp hmem
      cases heq
    refine bind_onWorld (F.addRows hw _ hkeys) fun _ w hw' => ?_
    refine .modify ⟨rfl, h.builtIn, ⟨_, hw', ht.putRows h.builtIn (.of ..) id rfl rfl⟩, fun x => ?_⟩
    rw [(Relaxes.of s ..).rows h.builtIn]
    refine Std.TreeMap.mem_insert.trans ?_
    rw [Nat.compare_eq_eq, h.lists, eq_comm (a := id)]
    constructor
    · rintro (rfl | ⟨hx, hne⟩)
      · exact ⟨.inr rfl, hrows⟩
      · exact ⟨.inl hx, hne⟩
    · rintro ⟨hx | hx, hne⟩
      · exact .inr ⟨hx, hne⟩
      · exact .inl hx

/-- **Removing the rows of a constraint.** -/
theorem Carries.removeConsRows (h : Carries F s active pending) (id : ConsId) :
    Ensures (removeConsRows sv id) s
      (fun _ t => s.Relaxes t ∧ Carries F t (fun x => active x ∧ x ≠ id) pending) (Fails F) := by
  obtain ⟨c, hw, ht⟩ := h.tracks
  unfold Search.removeConsRows
  refine .bind (.get ?_)
  cases hn : s.lpRows[id]? with
  | none =>
    have hnot : id ∉ s.lpRows := fun hmem => by
      rw [Std.TreeMap.mem_iff_isSome_getElem?, hn] at hmem
      cases hmem
    refine .pure ⟨.refl s, h.builtIn, h.tracks, fun x => ⟨fun hx => ?_, fun hx => (h.lists x).mpr ⟨hx.1.1, hx.2⟩⟩⟩
    obtain ⟨hactive, hne⟩ := (h.lists x).mp hx
    exact ⟨⟨hactive, fun heq => hnot (heq ▸ hx)⟩, hne⟩
  | some n =>
    refine .bind (.modify (.onPart ((F.removeRows hw _).mono (fun _ w hw' => ?_) fun _ _ => .inl)))
    refine ⟨rfl, h.builtIn, ⟨_, hw', ht.takeRows h.builtIn (.of ..) hn rfl rfl⟩, fun x => ?_⟩
    rw [(Relaxes.of s ..).rows h.builtIn]
    refine Std.TreeMap.mem_erase.trans ?_
    rw [Ne, Nat.compare_eq_eq, h.lists, eq_comm (a := id)]
    tauto

theorem Carries.removeAll (h : Carries F s active pending) (ids : List ConsId) :
    Ensures (ids.forM (Search.removeConsRows sv)) s
      (fun _ t => s.Relaxes t ∧ Carries F t (fun x => active x ∧ x ∉ ids) pending) (Fails F) := by
  induction ids generalizing s active with
  | nil => exact .pure ⟨.refl s, h.congr fun x => by simp⟩
  | cons id ids ih =>
    refine .bind_mono (h.removeConsRows id) fun _ t ⟨hr, ht⟩ => ?_
    refine (ih ht).mono (fun _ u ⟨hr', hu⟩ => ⟨hr.trans hr', hu.congr fun x => ?_⟩) fun _ _ h => h
    rw [List.mem_cons, not_or, and_assoc]

theorem Carries.addAll (h : Carries F s active pending) (ids : List ConsId) :
    Ensures (ids.forM (Search.addConsRows sv)) s
      (fun _ t => s.Relaxes t ∧ Carries F t (fun x => active x ∨ x ∈ ids) pending) (Fails F) := by
  induction ids generalizing s active with
  | nil => exact .pure ⟨.refl s, h.congr fun x => by simp⟩
  | cons id ids ih =>
    refine .bind_mono (h.addConsRows id) fun _ t ⟨hr, ht⟩ => ?_
    refine (ih ht).mono (fun _ u ⟨hr', hu⟩ => ⟨hr.trans hr', hu.congr fun x => ?_⟩) fun _ _ h => h
    rw [List.mem_cons, or_assoc]

/-- **A switch of the path** takes the rows out that it made inactive, and puts those in
that it made active. -/
theorem Carries.syncRows (h : Carries F s active pending) (delta : ActivationDelta) :
    Ensures (syncRows sv delta) s (fun _ t => s.Relaxes t ∧
      Carries F t (fun x => active x ∧ x ∉ delta.deactivated ∨ x ∈ delta.activated) pending) (Fails F) :=
  .bind_mono (h.removeAll delta.deactivated) fun _ _ ⟨hr, ht⟩ =>
    (ht.addAll delta.activated).mono (fun _ _ ⟨hr', hu⟩ => ⟨hr.trans hr', hu⟩) fun _ _ h => h

/-! ## Rows of cuts -/

/-- **The row of an active cut** is put in. -/
theorem Carries.addCutRow {id : Nat} (h : Carries F s active (id :: pending)) (hpool : s.pool.Wf)
    (hadmits : s.pool.All F.Admits) (hshown : ∃ row, s.pool.Shows id row) :
    Ensures (addCutRow sv id) s (fun _ t => s.Relaxes t ∧ Carries F t active pending) (Fails F) := by
  obtain ⟨c, hw, ht⟩ := h.tracks
  unfold Search.addCutRow
  refine .bind (.get ?_)
  cases hget : s.pool.get? id with
  | none => exact .throw (.inl (F.calm hw))
  | some x =>
    obtain ⟨hx, rfl⟩ := CutPool.get?_some hget
    obtain ⟨_, y, hy, hid, hactive, rfl⟩ := hshown
    obtain rfl := hpool.unique hy hx hid
    have hkeys : ∀ x row, (RowKey.cut x, row) ∈ [(RowKey.cut y.id, y.cut.row)] → F.Admits row := fun x row hmem => by
      cases List.mem_singleton.mp hmem
      exact hadmits y hy
    refine .bind (.modify (.onPart ((F.addRows hw _ hkeys).mono (fun _ w hw' => ?_) fun _ _ => .inl)))
    refine ⟨.of .., h.builtIn, ⟨_, hw', ht.columns, fun z k => ?_, ?_, fun z hz row => ?_, ?_⟩, ?_⟩
    · have hne : RowKey.constraint z k ≠ .cut y.id := RowKey.noConfusion
      rw [(Relaxes.of s ..).rows h.builtIn]
      exact (Function.update_of_ne hne (some y.cut.row) c.row).trans (ht.constraint z k)
    · intro z n hn
      rw [(Relaxes.of s ..).rows h.builtIn]
      exact ht.count z n hn
    · show s.pool.Shows z row ↔ RowKey.cut z ∉ s.staleCutRows.filter (· != .cut y.id) ∧
        Function.update c.row (.cut y.id) (some y.cut.row) (.cut z) = some row
      by_cases hzy : z = y.id
      · subst hzy
        rw [Function.update_self, Option.some.injEq]
        have hshows : s.pool.Shows y.id y.cut.row := ⟨y, hy, rfl, hactive, rfl⟩
        exact ⟨fun hrow => ⟨by simp, hpool.shows_unique hshows hrow⟩, fun hrow => hrow.2 ▸ hshows⟩
      · have hne : RowKey.cut z ≠ .cut y.id := fun heq => hzy (RowKey.cut.inj heq)
        rw [Function.update_of_ne hne, ht.cut z (by simp [hzy, hz])]
        simp [hne]
    · exact fun key hkey => ht.stale key (List.mem_filter.mp hkey).1
    · intro z
      rw [(Relaxes.of s ..).rows h.builtIn]
      exact h.lists z

/-- The rows of cuts that became active are pending. -/
theorem Carries.revive (h : Carries F s active []) {ids : List Nat} {pool : CutPool K}
    (hpool : CutPool.Revives s.pool ids pool) : Carries F { s with pool } active ids := by
  obtain ⟨c, hw, ht⟩ := h.tracks
  refine ⟨h.builtIn, ⟨c, hw, ht.columns, ht.constraint, ht.count, fun x hx row => ?_, ht.stale⟩, h.lists⟩
  exact (hpool.other hx row).trans (ht.cut x List.not_mem_nil row)

/-- **Cuts set aside** have their rows scheduled for removal. -/
theorem Tracks.retire {c : Contents K} (ht : s.Tracks c []) {ids : List Nat} {pool : CutPool K}
    (hpool : ∀ x row, pool.Shows x row ↔ s.pool.Shows x row ∧ x ∉ ids) :
    Tracks { s with pool, staleCutRows := s.staleCutRows ++ ids.map .cut } c [] := by
  refine ⟨ht.columns, ht.constraint, ht.count, fun x hx row => ?_, fun key hkey => ?_⟩
  · rw [hpool, ht.cut x hx]
    simp only [List.mem_append, List.mem_map, RowKey.cut.injEq, exists_eq_right, not_or]
    tauto
  · rcases List.mem_append.mp hkey with hkey | hkey
    · exact ht.stale key hkey
    · obtain ⟨id, -, rfl⟩ := List.mem_map.mp hkey
      exact ⟨id, rfl⟩

theorem Carries.retire (h : Carries F s active []) {ids : List Nat} {pool : CutPool K}
    (hpool : ∀ x row, pool.Shows x row ↔ s.pool.Shows x row ∧ x ∉ ids) :
    Carries F { s with pool, staleCutRows := s.staleCutRows ++ ids.map .cut } active [] := by
  obtain ⟨c, hw, ht⟩ := h.tracks
  exact ⟨h.builtIn, ⟨c, hw, ht.retire hpool⟩, h.lists⟩

/-- **Before a solve** the rows scheduled for removal are taken out. -/
theorem Carries.flushStaleRows (h : Carries F s active []) :
    Ensures (flushStaleRows sv) s
      (fun _ t => s.Relaxes t ∧ t.staleCutRows = [] ∧ Carries F t active []) (Fails F) := by
  obtain ⟨c, hw, ht⟩ := h.tracks
  unfold Search.flushStaleRows
  refine .bind (.get ?_)
  by_cases hnone : s.staleCutRows = []
  · rw [hnone]
    exact .pure ⟨.refl s, hnone, h⟩
  · rw [if_pos (by simpa using hnone)]
    refine .bind (.modify (.onPart ((F.removeRows hw _).mono (fun _ w hw' => ?_) fun _ _ => .inl)))
    refine ⟨.of .., rfl, h.builtIn, ⟨_, hw', ?_, fun x k => ?_, ?_, fun x hx row => ?_, nofun⟩, ?_⟩
    · rw [Contents.removeRows_costs]
      exact ht.columns
    · have hkey : RowKey.constraint x k ∉ s.staleCutRows := fun hmem => by
        obtain ⟨id, hid⟩ := ht.stale _ hmem
        cases hid
      rw [(Relaxes.of s ..).rows h.builtIn, Contents.removeRows_row, if_neg hkey]
      exact ht.constraint x k
    · intro x n hn
      rw [(Relaxes.of s ..).rows h.builtIn]
      exact ht.count x n hn
    · refine (ht.cut x hx row).trans ?_
      rw [Contents.removeRows_row]
      by_cases hmem : RowKey.cut x ∈ s.staleCutRows
      · simp [hmem]
      · simp [hmem]
    · intro x
      rw [(Relaxes.of s ..).rows h.builtIn]
      exact h.lists x

end BranchAndCut.Search

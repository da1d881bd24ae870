import BranchAndCut.Proofs.Model.Problem
import BranchAndCut.Proofs.Solve.Constraints

/-! # Columns that are priced in

A priced column becomes a variable of the problem, and its coefficients enter the
constraints one by one. The relaxation gets the column last, with the coefficients of
those constraints that have rows in it; until then their rows are those that the
relaxation is going to have. -/

namespace BranchAndCut

variable {K σ : Type} [Scalar K]

/-- The coefficient of a new column enters a linear constraint, or the column is refused. -/
theorem Handlers.addCoefficient_spec {hs : Handlers K σ} (hb : hs.custom = #[]) (w : σ) (h : HandlerId) (c : Nat)
    (v : VarId) (a : K) : Ensures (Handlers.addCoefficient h c v a) (hs, w)
      (fun _ t => h = 0 ∧ t.2 = w ∧ ∃ x, hs.linear.conss[c]? = some x ∧ t.1 = { hs with
        linear := { conss := hs.linear.conss.setIfInBounds c { x with row := x.row.addCoef v a } } })
      fun _ t => t.2 = w := by
  unfold Handlers.addCoefficient
  refine .bind (.get ?_)
  dsimp only
  rcases hs.which_of_builtIn hb h with ⟨rfl, hwhich⟩ | ⟨-, hwhich | hwhich⟩
  · simp only [hwhich]
    unfold LinearFamily.addCoefficient
    cases hx : hs.linear.conss[c]? with
    | none => exact .throw rfl
    | some x =>
      dsimp only
      by_cases hclosed : (!x.modifiable) = true
      · rw [if_pos hclosed]
        exact .throw rfl
      · rw [if_neg hclosed]
        exact .set ⟨trivial, rfl, x, rfl, rfl⟩
  · simp only [hwhich]
    exact .throw rfl
  · simp only [hwhich]
    exact .throw rfl

namespace Search

variable {sv : Solver K σ} {F : Footing sv} {s t : Search K σ}

omit [Scalar K] in
/-- A linear constraint has one row at most. -/
theorem initialRows_of {f : LinearFamily K} {c : Nat} {x : LinearConstraint K} (hx : f.conss[c]? = some x) :
    f.initialRows c = if x.isLazy || x.deleted then [] else [x.row] := by
  unfold LinearFamily.initialRows
  rw [hx]

/-- A coefficient of a constraint enters its rows, and the rows of no other constraint. -/
theorem rows_enter (hf : s.Filed) (hs : s.handlers.custom = #[]) (ht : t.handlers.custom = #[]) {id : ConsId}
    (hid : id < s.registry.size) (hh : s.registry.handler id = 0) {x : LinearConstraint K}
    (hx : s.handlers.linear.conss[s.registry.index id]? = some x) (v : VarId) (a : K)
    (hregistry : t.registry = s.registry) (hconss : t.handlers.linear.conss =
      s.handlers.linear.conss.setIfInBounds (s.registry.index id) { x with row := x.row.addCoef v a }) :
    ((s.rows id).length ≤ 1 ∧ t.rows id = (s.rows id).map (·.addCoef v a)) ∧
      ∀ y < s.registry.size, y ≠ id → t.rows y = s.rows y := by
  obtain ⟨hlt, -⟩ := Array.getElem?_eq_some_iff.mp hx
  have hx' : t.handlers.linear.conss[s.registry.index id]? = some { x with row := x.row.addCoef v a } := by
    rw [hconss, Array.getElem?_setIfInBounds_self_of_lt hlt]
  refine ⟨?_, fun y hy hne => ?_⟩
  · rw [rows_eq hs, rows_eq ht, hregistry, if_pos hh, if_pos hh, initialRows_of hx, initialRows_of hx']
    dsimp only
    split
    · exact ⟨Nat.zero_le 1, rfl⟩
    · exact ⟨Nat.le_refl 1, rfl⟩
  · refine rows_congr hs ht (fun hy0 => ?_) (by rw [hregistry]) (by rw [hregistry])
    unfold LinearFamily.initialRows
    rw [hconss, Array.getElem?_setIfInBounds_ne fun heq => hne (hf.distinct y hy id hid hy0 hh heq.symm)]

/-- The search while the coefficients of a new column enter the constraints. Once the
relaxation has the column, with the coefficients found so far, it is in line. -/
structure Entering (F : Footing sv) (r : Registry) (v : VarId) (cost : K) (found : List (RowKey × K))
    (t : Search K σ) : Prop where
  filed : t.Filed
  builtIn : t.handlers.custom = #[]
  registry : t.registry = r
  tracks : ∃ c, F.Holds t.world c ∧
    t.Tracks (found.foldl (Contents.enter v) { c with costs := c.costs ++ [cost] }) []
  lists : t.Lists (r.isActive · = true)
  keys : ∀ e ∈ found, ∀ id, e.1 ≠ .cut id
  admits : t.pool.All F.Admits
  scoring : t.brancher.custom = sv.scoring

theorem Entering.calm {r : Registry} {v : VarId} {cost : K} {found : List (RowKey × K)}
    (h : Entering F r v cost found t) : F.Calm t.world := by
  obtain ⟨c, hw, -⟩ := h.tracks
  exact F.calm hw

/-- The rows of the relaxation follow those of the constraint. -/
theorem Tracks.enter {d : Contents K} (ht : t.Tracks d []) (hlisted : ∀ y ∈ t.lpRows, y < t.registry.size)
    {u : Search K σ} {id : ConsId} {v : VarId} {a : K} (hone : (t.rows id).length ≤ 1)
    (hrows : u.rows id = (t.rows id).map (·.addCoef v a))
    (hother : ∀ y < t.registry.size, y ≠ id → u.rows y = t.rows y) (hproblem : u.problem = t.problem)
    (hlp : u.lpRows = t.lpRows) (hstale : u.staleCutRows = t.staleCutRows) (hpool : u.pool = t.pool) :
    u.Tracks ((if t.lpRows.contains id then some (RowKey.constraint id 0, a) else none).toList.foldl
      (Contents.enter v) d) [] := by
  have hcount : ∀ y n, u.lpRows[y]? = some n → n = (u.rows y).length := by
    intro y n hn
    rw [hlp] at hn
    have hy : y ∈ t.lpRows := by
      rw [Std.TreeMap.mem_iff_isSome_getElem?, hn]
      rfl
    by_cases hyid : y = id
    · rw [hyid, hrows, List.length_map]
      exact ht.count id n (hyid ▸ hn)
    · rw [hother y (hlisted y hy) hyid]
      exact ht.count y n hn
  have hcolumns : d.costs = u.problem.costs := hproblem ▸ ht.columns
  have hsame : ∀ y k, y ≠ id → d.row (.constraint y k) = if y ∈ u.lpRows then (u.rows y)[k]? else none := by
    intro y k hyid
    rw [ht.constraint, hlp]
    split
    · next hy => rw [hother y (hlisted y hy) hyid]
    · rfl
  by_cases hmem : id ∈ t.lpRows
  · rw [if_pos (Std.TreeMap.mem_iff_contains.mp hmem)]
    show u.Tracks (d.enter v (.constraint id 0, a)) []
    refine ⟨hcolumns, fun y k => ?_, hcount, fun y hy row => ?_, hstale ▸ ht.stale⟩
    · show Function.update d.row (.constraint id 0) ((d.row (.constraint id 0)).map (·.addCoef v a)) _ = _
      by_cases hyid : y = id
      · subst hyid
        have hself : ∀ k, d.row (.constraint y k) = (t.rows y)[k]? := fun k => by rw [ht.constraint, if_pos hmem]
        rw [if_pos (hlp ▸ hmem), hrows, List.getElem?_map, ← hself]
        by_cases hk : k = 0
        · rw [hk, Function.update_self]
        · rw [Function.update_of_ne fun heq => hk (RowKey.constraint.inj heq).2, hself,
            List.getElem?_eq_none (by omega), Option.map_none]
      · rw [Function.update_of_ne fun heq => hyid (RowKey.constraint.inj heq).1]
        exact hsame y k hyid
    · have hne : RowKey.cut y ≠ .constraint id 0 := RowKey.noConfusion
      rw [hpool, hstale]
      rw [Contents.enter_of_ne _ _ _ hne]
      exact ht.cut y hy row
  · rw [if_neg fun hc => hmem (Std.TreeMap.mem_iff_contains.mpr hc)]
    show u.Tracks d []
    refine ⟨hcolumns, fun y k => ?_, hcount, fun y hy row => ?_, hstale ▸ ht.stale⟩
    · by_cases hyid : y = id
      · rw [hyid, ht.constraint, hlp, if_neg hmem, if_neg hmem]
      · exact hsame y k hyid
    · rw [hpool, hstale]
      exact ht.cut y hy row

/-- **A coefficient enters** a constraint, and its row if that is in the relaxation. -/
theorem Entering.enterColumn {r : Registry} {v : VarId} {cost : K} {found : List (RowKey × K)}
    (h : Entering F r v cost found t) {entry : ConsId × K} (hid : entry.1 < r.size) :
    Ensures (enterColumn v entry) t
      (fun e u => Entering F r v cost (found ++ e.toList) u) (Fails F) := by
  obtain ⟨id, a⟩ := entry
  obtain ⟨c, hw, ht⟩ := h.tracks
  obtain rfl := h.registry
  change id < t.registry.size at hid
  have hlt : ∀ y, t.registry.isActive y = true → y < t.registry.size := fun y =>
    h.filed.registry.mirrors.lt_of_isActive
  unfold Search.enterColumn
  refine .bind (.get (.bind (.onPart ((Handlers.addCoefficient_spec h.builtIn _ _ _ v a).mono ?_ ?_))))
  · rintro _ ⟨hs, w⟩ ⟨hh, rfl, x, hx, rfl⟩
    refine .bind (.modify (.bind (.get (.pure ?_))))
    generalize hu : lockCons _ _ _ = u
    have hregistry : u.registry = t.registry := hu ▸ rfl
    have hlp : u.lpRows = t.lpRows := hu ▸ rfl
    have hconss : u.handlers.linear.conss = t.handlers.linear.conss.setIfInBounds (t.registry.index id)
        { x with row := x.row.addCoef v a } := hu ▸ rfl
    have hb : u.handlers.custom = #[] := hu ▸ h.builtIn
    obtain ⟨⟨hone, hrows⟩, hother⟩ := rows_enter h.filed h.builtIn hb hid hh hx v a hregistry hconss
    rw [hlp]
    refine ⟨?_, hb, hregistry, ⟨c, hu ▸ hw, ?_⟩, fun y => ?_, fun e he y => ?_, hu ▸ h.admits, hu ▸ h.scoring⟩
    · refine h.filed.transfer (hregistry ▸ h.filed.registry) (by rw [hregistry]) (fun y => by rw [hregistry])
        (fun y => by rw [hregistry]) ?_ (hu ▸ h.filed.pool) (hu ▸ h.filed.named)
      rw [hconss, Array.size_setIfInBounds]
    · rw [List.foldl_append]
      exact ht.enter (fun y hy => hlt y ((h.lists y).mp hy).1) hone hrows hother (hu ▸ rfl) hlp
        (hu ▸ rfl) (hu ▸ rfl)
    · rw [hlp, h.lists]
      refine and_congr_right fun hy => ?_
      by_cases hyid : y = id
      · rw [hyid, hrows, Ne, Ne, List.map_eq_nil_iff]
      · rw [hother y (hlt y hy) hyid]
    · rcases List.mem_append.mp he with he | he
      · exact h.keys e he y
      · split at he
        · cases List.mem_singleton.mp he
          exact RowKey.noConfusion
        · cases he
  · rintro _ ⟨hs, w⟩ rfl
    exact .inl h.calm

/-- Coefficients are refused that no constraint can take. -/
theorem ensures_checkEntry (hcalm : F.Calm s.world) (pricer : String) (col : PricedColumn K) (entry : ConsId × K) :
    Ensures (checkEntry pricer col entry) s (fun _ t => t = s ∧ entry.1 < s.registry.size) (Fails F) := by
  unfold checkEntry
  refine .bind (.get ?_)
  dsimp only
  split
  · exact .bind (.throw (.inl hcalm))
  · next hentry =>
    rw [Bool.or_eq_true, Bool.or_eq_true, decide_eq_true_eq, not_or, not_or] at hentry
    split
    · exact .throw (.inl hcalm)
    · exact .pure ⟨rfl, Nat.not_le.mp hentry.1.1⟩

/-- **Adding a priced column.** -/
theorem Synced.addPricedColumn (h : Synced F s) (pricer : String) (col : PricedColumn K) :
    Ensures (addPricedColumn sv pricer col) s
      (fun _ t => Synced F t ∧ t.registry = s.registry) (Fails F) := by
  -- the entries looked at so far name constraints
  have hentries : Ensures (col.coefs.forM (checkEntry pricer col)) s
      (fun _ t => t = s ∧ ∀ e ∈ col.coefs, e ∈ ([] : List (ConsId × K)) ∨ e.1 < s.registry.size) (Fails F) := by
    refine Ensures.forM (I := fun rest t => t = s ∧ ∀ e ∈ col.coefs, e ∈ rest ∨ e.1 < s.registry.size) ?_
      ⟨rfl, fun e he => .inl he⟩
    rintro entry rest t ⟨rfl, hrest⟩
    refine (ensures_checkEntry h.calm pricer col entry).mono ?_ fun _ _ hfail => hfail
    rintro _ u ⟨rfl, hentry⟩
    refine ⟨rfl, fun e he => ?_⟩
    rcases hrest e he with hmem | hlt
    · rcases List.mem_cons.mp hmem with rfl | hmem
      · exact .inr hentry
      · exact .inl hmem
    · exact .inr hlt
  unfold Search.addPricedColumn
  refine .bind_mono hentries fun _ t ⟨hs, hlt⟩ => ?_
  subst hs
  refine .bind (.get ?_)
  split
  · exact .throw (.inl h.calm)
  · next v problem hproblem =>
    obtain ⟨c, hw, ht⟩ := h.carries.tracks
    refine .bind (.set ?_)
    dsimp only
    by_cases hv : t.domains.numVars ≠ v
    · rw [if_pos hv]
      exact .bind (.throw (.inl h.calm))
    rw [if_neg hv]
    have hstart : ∀ domains : Domains K, Entering F t.registry v (problem.cost v) [] { t with problem, domains } := fun domains => by
      refine ⟨⟨h.filed.registry, h.filed.stored, h.filed.distinct, h.filed.pool, h.filed.named⟩, h.carries.builtIn,
        rfl, ⟨c, hw, ?_, ht.constraint, ht.count, ht.cut, ht.stale⟩, h.carries.lists, nofun, h.admits, h.scoring⟩
      exact (congrArg (· ++ [problem.cost v]) ht.columns).trans (Problem.addVar_costs hproblem).symm
    refine .bind_mono (Ensures.mapM (I := fun found u => Entering F t.registry v (problem.cost v) (found.filterMap id) u) ?_
      (hstart _)) fun found u hu => ?_
    · intro entry hentry found u hu
      refine (hu.enterColumn ((hlt entry hentry).resolve_left List.not_mem_nil)).mono (fun e w hw => ?_)
        fun _ _ hfail => hfail
      rw [List.filterMap_append]
      cases e <;> exact hw
    · obtain ⟨d, hd, hud⟩ := hu.tracks
      refine bind_onWorld (F.addColumns hd _ fun col hcol => ?_) fun _ w hw' =>
        .modify ⟨⟨?_, ⟨hu.builtIn, ⟨_, hw', ?_⟩, ?_⟩, hu.admits, hu.scoring⟩, hu.registry⟩
      · cases List.mem_singleton.mp hcol
        exact hu.keys
      · exact hu.filed.relaxes (.of ..)
      · exact hud.relaxes hu.builtIn (.of ..) rfl rfl
      · refine (hu.lists.congr fun y => ?_).relaxes hu.builtIn (.of ..) rfl
        rw [← hu.registry]

end Search

end BranchAndCut

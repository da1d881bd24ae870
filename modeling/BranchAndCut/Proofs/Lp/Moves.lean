import BranchAndCut.Proofs.Lp.State

/-! # Moves of the simplex method

Computing the values from the columns that are not basic gives a solution of the
constraint rows; moving one of these columns, with or without an exchange, keeps
the basis a basis and the other columns at their bounds. A move that ends at the
opposite bound of the moved column is exact. -/

namespace BranchAndCut.Lp.Simplex

variable [Rooted ℚ] {p : Problem (Exact ℚ)} {s : Simplex (Exact ℚ)} {t : Tableau (Exact ℚ)}
  {j r : Nat}

/-! ## Values from the basis -/

theorem basicValue_eq (hb : s.Based p t) {values : Array (Exact ℚ)} {f : Nat → ℚ}
    (hvalues : ∀ k < p.width, ¬ t.InBasis k → values.getD k 0 = .fin (f k)) {i : Nat}
    (hi : i < t.rows.size) : basicValue s.status values (t.rows.getD i #[]) =
      .fin (-∑ k ∈ t.nonbasic p.width, t.entry i k * f k) := by
  have hsize := hb.derived.numeric.width i hi
  have hfold : basicValue s.status values (t.rows.getD i #[]) =
      .fin (-∑ k ∈ Finset.range (t.rows.getD i #[]).size,
        if t.InBasis k then 0 else t.entry i k * f k) := by
    refine fold_induction (fun n v => v = Exact.fin (-∑ k ∈ Finset.range n,
      if t.InBasis k then 0 else t.entry i k * f k)) (by simp [Exact.zero_def]) ?_
    rintro k hk v rfl
    have hlt : k < p.width := hsize ▸ hk
    have hstatus : s.status.getD k .basic = s.statusOf k := rfl
    dsimp only
    rw [hb.derived.numeric.row_getD, Exact.zero_def, Exact.fin_bne, Finset.sum_range_succ, hstatus]
    by_cases hbasic : t.InBasis k
    · rw [hb.basic k hlt hbasic, if_neg (by simp), if_pos hbasic, add_zero]
    · have hne := statusOf_ne_basic hb hlt hbasic
      rw [if_neg hbasic]
      by_cases hzero : t.entry i k = 0
      · rw [if_neg (by simp [hzero]), hzero, zero_mul, add_zero]
      · rw [if_pos (by simp [hzero, hne]), ← Exact.zero_def, hvalues k hlt hbasic, Exact.fin_mul,
          Exact.fin_sub, neg_add, sub_eq_add_neg]
  rw [hfold, hsize]
  unfold Tableau.nonbasic
  rw [Finset.sum_filter]
  simp only [ite_not]

theorem recompute_of (hs : s.Of p) : s.recompute.Of p := by
  unfold recompute
  cases s.tableau with
  | none =>
    exact ⟨hs.problem, hs.cost, hs.lower, hs.upper, hs.base, hs.status, by simp [hs.values]⟩
  | some t =>
    refine ⟨hs.problem, hs.cost, hs.lower, hs.upper, hs.base, hs.status, ?_⟩
    refine fold_induction (fun _ (values : Array (Exact ℚ)) => values.size = p.width)
      (by simp [hs.values]) ?_
    intro i _ values hvalues
    rw [Array.size_setIfInBounds, hvalues]

theorem recompute_eq (ht : s.tableau = some t) : ∃ values, s.recompute = { s with values } := by
  unfold recompute
  rw [ht]
  exact ⟨_, rfl⟩

theorem Based.with_values (hb : s.Based p t) (values : Array (Exact ℚ)) :
    Based p { s with values } t :=
  ⟨hb.tableau, hb.derived, hb.complete, hb.basic, hb.rests⟩

/-- **Recomputed values solve the constraint rows.** -/
theorem recompute_spec (hs : s.Of p) (hb : s.Based p t) :
    s.recompute.Based p t ∧ s.recompute.Placed p t ∧ t.Solves p.width s.recompute.val := by
  obtain ⟨values, heq⟩ := recompute_eq hb.tableau
  have hnonbasic : ∀ k < p.width, ¬ t.InBasis k →
      s.nonbasicValue k = .fin (s.nonbasicValue k).toField := by
    intro k hlt hk
    obtain ⟨q, hq⟩ := nonbasicValue_finite hs (hb.rests k hlt hk)
    rw [hq, Exact.toField_fin]
  let resting : Nat → ℚ := fun k => (s.nonbasicValue k).toField
  have hloop : (∀ k < p.width, ¬ t.InBasis k → s.recompute.valueOf k = .fin (resting k)) ∧
      ∀ i < t.rows.size, s.recompute.valueOf (t.basicColumn i) =
        .fin (-∑ k ∈ t.nonbasic p.width, t.entry i k * resting k) := by
    have hfold := fold_induction (n := t.rows.size)
      (x := s.values.mapIdx fun j v => if s.statusOf j != .basic then s.nonbasicValue j else v)
      (f := fun i _ values => values.setIfInBounds (t.basicColumn i)
        (basicValue s.status values (t.rows.getD i #[])))
      (fun n values => values.size = p.width ∧
        (∀ k < p.width, ¬ t.InBasis k → values.getD k 0 = .fin (resting k)) ∧
        ∀ i < n, i < t.rows.size → values.getD (t.basicColumn i) 0 =
          .fin (-∑ k ∈ t.nonbasic p.width, t.entry i k * resting k)) ?_ ?_
    · have hvalues : s.recompute.values = t.rows.size.fold (fun i _ values =>
          values.setIfInBounds (t.basicColumn i) (basicValue s.status values (t.rows.getD i #[])))
          (s.values.mapIdx fun j v =>
            if s.statusOf j != .basic then s.nonbasicValue j else v) := by
        unfold recompute
        rw [hb.tableau]
      unfold valueOf
      rw [hvalues]
      exact ⟨hfold.2.1, fun i hi => hfold.2.2 i hi hi⟩
    · refine ⟨by rw [Array.size_mapIdx, hs.values], fun k hlt hk => ?_, nofun⟩
      have hne := statusOf_ne_basic hb hlt hk
      rw [getD_mapIdx _ _ _ 0, if_pos (hs.values.symm ▸ hlt), if_pos (by simpa using hne)]
      exact hnonbasic k hlt hk
    · rintro i hi values ⟨hsize, hrest, hdone⟩
      have hlt := hb.derived.basic_lt hb.complete hi
      refine ⟨by rw [Array.size_setIfInBounds, hsize], fun k hk hkn => ?_, fun i' hi' hrow => ?_⟩
      · rw [getD_setIfInBounds, if_neg fun h => hkn ⟨i, hi, h.1.symm⟩]
        exact hrest k hk hkn
      · rw [getD_setIfInBounds, hsize]
        by_cases hii : i' = i
        · rw [hii, if_pos ⟨rfl, hlt⟩]
          exact basicValue_eq hb hrest hi
        · rw [if_neg fun h => hii (hb.derived.basicColumn_inj hb.complete hi hrow h.1)]
          exact hdone i' (by omega) hrow
  have hval : ∀ k < p.width, ¬ t.InBasis k → s.recompute.val k = resting k := fun k hlt hk =>
    val_of_valueOf (hloop.1 k hlt hk)
  refine ⟨heq ▸ hb.with_values values, ⟨fun k hlt hk => ?_, fun k hlt => ?_⟩, fun i hi => ?_⟩
  · rw [hloop.1 k hlt hk, ← hnonbasic k hlt hk, heq]
    rfl
  · by_cases hk : t.InBasis k
    · obtain ⟨i, hi, rfl⟩ := hk
      rw [val_of_valueOf (hloop.2 i hi), hloop.2 i hi]
    · rw [hval k hlt hk, hloop.1 k hlt hk]
  · rw [hb.derived.sum_row hb.complete hi, val_of_valueOf (hloop.2 i hi), neg_add_eq_zero]
    refine Finset.sum_congr rfl fun k hk => ?_
    obtain ⟨hlt, hkn⟩ := Finset.mem_filter.mp hk
    rw [hval k (Finset.mem_range.mp hlt) hkn]

theorem Based.with_tableau (hv : p.Valid) (hwf : p.a.WellFormed) (hs : s.Of p) (hb : s.Based p t)
    {tolPivot : Exact ℚ} (htol : 0 ≤ tolPivot) {t' : Tableau (Exact ℚ)}
    (hfactor : Tableau.factor? s.base t.basis tolPivot = some t') :
    Based p { s with tableau := some t' } t' := by
  have hof : Of p { s with tableau := some t' } :=
    ⟨hs.problem, hs.cost, hs.lower, hs.upper, hs.base, hs.status, hs.values⟩
  have hmem := fun j => Tableau.mem_basis (j := j) hb.derived.head
  exact based_of_factor? hv hwf hof htol hfactor rfl
    (fun j hlt hj => hb.basic j hlt ((hmem j).mp hj))
    fun j hlt hj => hb.rests j hlt fun hin => hj ((hmem j).mpr hin)

/-- A tableau computed afresh. -/
theorem refactor?_spec (hv : p.Valid) (hwf : p.a.WellFormed) (hs : s.Of p) (hb : s.Based p t)
    (htol : 0 ≤ s.settings.tolPivot) {s' : Simplex (Exact ℚ)} (hrefactor : s.refactor? = some s') :
    s'.Of p ∧ s'.settings = s.settings ∧
      ∃ t', s'.Based p t' ∧ s'.Placed p t' ∧ t'.Solves p.width s'.val := by
  unfold refactor? at hrefactor
  rw [hb.tableau, Option.bind_eq_bind, Option.bind_some] at hrefactor
  obtain ⟨t', hfactor, hsome⟩ := Option.bind_eq_some_iff.mp hrefactor
  obtain rfl := Option.some.inj hsome
  have hof : Of p { s with tableau := some t' } :=
    ⟨hs.problem, hs.cost, hs.lower, hs.upper, hs.base, hs.status, hs.values⟩
  have hbased := hb.with_tableau hv hwf hs htol hfactor
  obtain ⟨values, heq⟩ := recompute_eq hbased.tableau
  exact ⟨recompute_of hof, by rw [heq], t', recompute_spec hof hbased⟩

/-- The state in which a solve starts to step; the slack basis is one in any case. -/
theorem start_spec (hv : p.Valid) (hwf : p.a.WellFormed) (hs : s.Of p)
    (htol : 0 ≤ s.settings.tolPivot) (warmStart : Option Basis) :
    (s.start warmStart).1.Of p ∧ (s.start warmStart).1.settings = s.settings ∧
      ∃ t, (s.start warmStart).1.Based p t ∧ (s.start warmStart).1.Placed p t ∧
        t.Solves p.width (s.start warmStart).1.val := by
  have hstart := (hs.shaped hv hwf).start_alike warmStart
  refine ⟨hs.alike hstart, hstart.settings, ?_⟩
  have hslack : ∀ s : Simplex (Exact ℚ), s.Of p → ∃ t, s.installSlackBasis.recompute.Based p t ∧
      s.installSlackBasis.recompute.Placed p t ∧
        t.Solves p.width s.installSlackBasis.recompute.val := by
    intro s hs
    obtain ⟨t, ht, -⟩ := (hs.shaped hv hwf).slackTableau
    exact ⟨t, recompute_spec (installSlackBasis_of hs) (installSlackBasis_based hv hwf hs ht)⟩
  unfold start
  cases warmStart with
  | none => exact hslack s hs
  | some b =>
    obtain ⟨hs', -, hbased⟩ := installBasis_spec hv hwf hs htol b
    dsimp only
    split
    · next hwarm =>
      obtain ⟨t, hb⟩ := hbased hwarm
      exact ⟨t, recompute_spec hs' hb⟩
    · exact hslack _ hs'

/-! ## Moving a column -/

theorem shift_eq (t : Tableau (Exact ℚ)) (j : Nat) (dir step : Exact ℚ) :
    ∃ values, s.shift t j dir step = { s with values } := by
  unfold shift
  split_ifs
  · exact ⟨s.values, rfl⟩
  · exact ⟨_, rfl⟩

/-- **A shift moves all columns along the ray of the moved one.** -/
theorem shift_spec (hs : s.Of p) (hb : s.Based p t) (hp : s.Placed p t) (hlt : j < p.width) (δ σ : ℚ) :
    (s.shift t j (.fin δ) (.fin σ)).values.size = p.width ∧
      ∀ k < p.width, (s.shift t j (.fin δ) (.fin σ)).valueOf k =
        .fin (s.val k + δ * σ * t.ray j k) := by
  unfold shift
  rw [Exact.zero_def, Exact.fin_beq]
  by_cases hσ : σ = 0
  · rw [if_pos (by simpa using hσ)]
    refine ⟨hs.values, fun k hk => ?_⟩
    rw [hp.finite k hk, hσ, mul_zero, zero_mul, add_zero]
  rw [if_neg (by simpa using hσ)]
  unfold valueOf
  dsimp only
  have hfold := fold_induction (n := t.rows.size)
    (x := s.values.modify j (· + .fin δ * .fin σ))
    (f := fun i _ values =>
      let a := t.get i j
      if a != .fin 0 then values.modify (t.basicColumn i) (· - a * .fin δ * .fin σ) else values)
    (fun n values => values.size = p.width ∧ ∀ k < p.width, values.getD k 0 =
      .fin (s.val k + δ * σ * ((if k = j then 1 else 0) -
        ∑ i ∈ Finset.range n, if t.basicColumn i = k then t.entry i j else 0))) ?_ ?_
  · exact hfold
  · refine ⟨by rw [Array.size_modify, hs.values], fun k hk => ?_⟩
    have hval : s.values.getD k 0 = .fin (s.val k) := hp.finite k hk
    rw [getD_modify, hs.values, hval, Finset.range_zero, Finset.sum_empty, sub_zero]
    by_cases hkj : k = j
    · rw [if_pos ⟨hkj, hlt⟩, if_pos hkj, mul_one, Exact.fin_mul, Exact.fin_add]
    · rw [if_neg fun h => hkj h.1, if_neg hkj, mul_zero, add_zero]
  · rintro i hi values ⟨hsize, hvalues⟩
    dsimp only
    rw [hb.derived.numeric.finite, Exact.fin_bne]
    by_cases hentry : t.entry i j = 0
    · rw [if_neg (by simpa using hentry)]
      refine ⟨hsize, fun k hk => ?_⟩
      rw [hvalues k hk, Finset.sum_range_succ, hentry, ite_self, add_zero]
    · rw [if_pos (by simpa using hentry)]
      refine ⟨by rw [Array.size_modify, hsize], fun k hk => ?_⟩
      rw [getD_modify, hsize, hvalues k hk, Finset.sum_range_succ]
      by_cases hk' : k = t.basicColumn i
      · rw [if_pos ⟨hk', hk' ▸ hk⟩, if_pos hk'.symm, Exact.fin_mul, Exact.fin_mul, Exact.fin_sub]
        congr 1
        ring
      · rw [if_neg fun h => hk' h.1, if_neg (Ne.symm hk'), add_zero]

/-- The directions in which a column can leave the place where it rests. -/
def Leaves (st : ColumnStatus) (δ : ℚ) : Prop :=
  match st with
  | .basic => False
  | .atLower => δ = 1
  | .atUpper => δ = -1
  | .atZero => δ = 1 ∨ δ = -1

omit [Rooted ℚ] in
theorem Leaves.ne_basic {st : ColumnStatus} {δ : ℚ} (h : Leaves st δ) : st ≠ .basic := by
  rintro rfl
  exact h

/-- **A move to the opposite bound** keeps the basis and follows the ray. -/
theorem flip_spec (hs : s.Of p) (hb : s.Based p t) (hp : s.Placed p t) (hlt : j < p.width)
    {δ σ : ℚ} (hleaves : Leaves (s.statusOf j) δ)
    (hrange : s.upperOf j - s.lowerOf j = .fin σ) :
    (s.flip t j (.fin δ) (.fin σ)).Of p ∧ (s.flip t j (.fin δ) (.fin σ)).settings = s.settings ∧
      (s.flip t j (.fin δ) (.fin σ)).Based p t ∧ (s.flip t j (.fin δ) (.fin σ)).Placed p t ∧
      ∀ k < p.width, (s.flip t j (.fin δ) (.fin σ)).val k = s.val k + δ * σ * t.ray j k := by
  have hj : ¬ t.InBasis j := fun hin => hleaves.ne_basic (hb.basic j hlt hin)
  obtain ⟨hsize, hshift⟩ := shift_spec hs hb hp hlt δ σ
  obtain ⟨values, heq⟩ := shift_eq (s := s) t j (.fin δ) (.fin σ)
  rw [heq] at hsize hshift
  obtain ⟨l, u, hl, hu, hσ⟩ : ∃ l u, s.lowerOf j = .fin l ∧ s.upperOf j = .fin u ∧ σ = u - l := by
    cases hl : s.lowerOf j <;> cases hu : s.upperOf j <;> rw [hl, hu] at hrange <;>
      try cases hrange
    exact ⟨_, _, rfl, rfl, (sub_eq_add_neg _ _).symm⟩
  let st : ColumnStatus := if (0 : Exact ℚ) < .fin δ then .atUpper else .atLower
  let landed : Simplex (Exact ℚ) :=
    { s with values, status := s.status.setIfInBounds j st }
  have hflip : s.flip t j (.fin δ) (.fin σ) =
      { landed with values := values.setIfInBounds j (landed.nonbasicValue j) } := by
    unfold flip
    rw [heq]
  have hstatus : ∀ k, landed.statusOf k = if k = j then st else s.statusOf k := by
    intro k
    have hget : landed.statusOf k = if k = j ∧ j < s.status.size then st else s.statusOf k :=
      getD_setIfInBounds _ _ _ _ _
    rw [hget, hs.status]
    by_cases hk : k = j
    · rw [if_pos ⟨hk, hlt⟩, if_pos hk]
    · rw [if_neg fun h => hk h.1, if_neg hk]
  -- the column lands on its opposite bound
  have hland : landed.nonbasicValue j = .fin (s.val j + δ * σ) ∧ Rests p st j := by
    have hval : s.valueOf j = s.nonbasicValue j := hp.nonbasic j hlt hj
    have hlower : landed.lowerOf j = .fin l := hl
    have hupper : landed.upperOf j = .fin u := hu
    have hrests := hb.rests j hlt hj
    have hne := hleaves.ne_basic
    unfold nonbasicValue at hval ⊢
    unfold Rests at hrests
    unfold Leaves at hleaves
    rw [hstatus, if_pos rfl, hlower, hupper]
    rw [hl, hu] at hval
    cases hst : s.statusOf j with
    | basic => exact (hne hst).elim
    | atLower =>
      rw [hst] at hleaves hval
      obtain rfl : δ = 1 := hleaves
      have hpos : st = .atUpper := if_pos (by rw [Exact.zero_def, Exact.fin_lt]; norm_num)
      rw [hpos, val_of_valueOf hval, hσ, one_mul, add_sub_cancel]
      exact ⟨rfl, by rw [Rests, ← hs.upperOf, hu]; rfl⟩
    | atUpper =>
      rw [hst] at hleaves hval
      obtain rfl : δ = -1 := hleaves
      have hneg : st = .atLower := if_neg (by rw [Exact.zero_def, Exact.fin_lt]; norm_num)
      rw [hneg, val_of_valueOf hval, hσ]
      exact ⟨congrArg Exact.fin (by ring), by rw [Rests, ← hs.lowerOf, hl]; rfl⟩
    | atZero =>
      rw [hst, ← hs.lowerOf, hl] at hrests
      cases hrests.1
  have hvalue : ∀ k < p.width, (s.flip t j (.fin δ) (.fin σ)).valueOf k =
      .fin (s.val k + δ * σ * t.ray j k) := by
    intro k hk
    have hget : (s.flip t j (.fin δ) (.fin σ)).valueOf k =
        if k = j ∧ j < values.size then landed.nonbasicValue j else values.getD k 0 := by
      rw [hflip]
      exact getD_setIfInBounds _ _ _ _ _
    rw [hget, hsize]
    by_cases hkj : k = j
    · rw [if_pos ⟨hkj, hlt⟩, hland.1, hkj, Tableau.ray_of_nonbasic hj, if_pos rfl, mul_one]
    · rw [if_neg fun h => hkj h.1]
      exact hshift k hk
  refine ⟨?_, by rw [hflip], ?_, ?_, fun k hk => val_of_valueOf (hvalue k hk)⟩
  · rw [hflip]
    exact ⟨hs.problem, hs.cost, hs.lower, hs.upper, hs.base,
      (Array.size_setIfInBounds).trans hs.status, (Array.size_setIfInBounds).trans hsize⟩
  · rw [hflip]
    refine ⟨hb.tableau, hb.derived, hb.complete, fun k hk hin => ?_, fun k hk hkn => ?_⟩
    · refine (hstatus k).trans ?_
      have hkj : k ≠ j := fun h => hj (h ▸ hin)
      rw [if_neg hkj]
      exact hb.basic k hk hin
    · have hrests : Rests p (landed.statusOf k) k := by
        rw [hstatus k]
        by_cases hkj : k = j
        · rw [if_pos hkj, hkj]
          exact hland.2
        · rw [if_neg hkj]
          exact hb.rests k hk hkn
      exact hrests
  · refine ⟨fun k hk hkn => ?_, fun k hk => by rw [val_of_valueOf (hvalue k hk), hvalue k hk]⟩
    have hnonbasic : (s.flip t j (.fin δ) (.fin σ)).nonbasicValue k = landed.nonbasicValue k := by
      rw [hflip]
      rfl
    rw [hvalue k hk, hnonbasic, Tableau.ray_of_nonbasic hkn]
    by_cases hkj : k = j
    · rw [if_pos hkj, mul_one, hkj, hland.1]
    · rw [if_neg hkj, mul_zero, add_zero, ← hp.finite k hk, hp.nonbasic k hk hkn]
      unfold nonbasicValue
      rw [hstatus k, if_neg hkj]
      rfl

/-- **An exchange** of a nonbasic column for the one of a row, which stops at one
of its bounds, gives a basis again. -/
theorem exchange_spec (hs : s.Of p) (hb : s.Based p t) (hp : s.Placed p t) (hlt : j < p.width)
    (hj : ¬ t.InBasis j) (hr : r < t.rows.size) (hpivot : t.entry r j ≠ 0) {δ σ β : ℚ}
    {atUpper : Bool} (hbound : (if atUpper then s.upperOf (t.basicColumn r)
      else s.lowerOf (t.basicColumn r)) = .fin β) :
    let s' := (s.shift t j (.fin δ) (.fin σ)).exchange t r j (.fin β) atUpper
    s'.Of p ∧ s'.settings = s.settings ∧ s'.Based p (t.pivot r j) ∧ s'.Placed p (t.pivot r j) := by
  intro s'
  obtain ⟨hsize, hshift⟩ := shift_spec hs hb hp hlt δ σ
  obtain ⟨values, heq⟩ := shift_eq (s := s) t j (.fin δ) (.fin σ)
  rw [heq] at hsize hshift
  let left : ColumnStatus :=
    if atUpper && s.lowerOf (t.basicColumn r) != s.upperOf (t.basicColumn r) then .atUpper
    else .atLower
  have hexchange : s' =
      { s with
        tableau := some (t.pivot r j)
        status := (s.status.setIfInBounds j .basic).setIfInBounds (t.basicColumn r) left
        values := values.setIfInBounds (t.basicColumn r) (.fin β) } := by
    show (s.shift t j (.fin δ) (.fin σ)).exchange t r j (.fin β) atUpper = _
    rw [heq]
    rfl
  have hleaving := hb.derived.basic_lt hb.complete hr
  have hne : t.basicColumn r ≠ j := fun h => hj ⟨r, hr, h⟩
  have hof : s'.Of p := by
    rw [hexchange]
    refine ⟨hs.problem, hs.cost, hs.lower, hs.upper, hs.base, ?_, ?_⟩
    · rw [Array.size_setIfInBounds, Array.size_setIfInBounds, hs.status]
    · rw [Array.size_setIfInBounds]
      exact hsize
  have hlower : ∀ k, s'.lowerOf k = s.lowerOf k := fun k => by rw [hexchange]; rfl
  have hupper : ∀ k, s'.upperOf k = s.upperOf k := fun k => by rw [hexchange]; rfl
  have hstatus : ∀ k, s'.statusOf k = if k = t.basicColumn r then left
      else if k = j then .basic else s.statusOf k := by
    intro k
    rw [hexchange]
    unfold statusOf
    dsimp only
    rw [getD_setIfInBounds, getD_setIfInBounds, Array.size_setIfInBounds, hs.status]
    simp only [hleaving, hlt, and_true]
  have hvalue : ∀ k < p.width, s'.valueOf k = if k = t.basicColumn r then .fin β
      else .fin (s.val k + δ * σ * t.ray j k) := by
    intro k hk
    have hmoved : values.getD k 0 = .fin (s.val k + δ * σ * t.ray j k) := hshift k hk
    rw [hexchange]
    unfold valueOf
    dsimp only
    rw [getD_setIfInBounds, hsize, hmoved]
    simp only [hleaving, and_true]
  -- the leaving column stops where its status says
  have hleft : s'.nonbasicValue (t.basicColumn r) = .fin β ∧ Rests p left (t.basicColumn r) := by
    unfold nonbasicValue
    rw [hstatus, if_pos rfl, hlower, hupper]
    cases hup : atUpper with
    | false =>
      rw [hup, if_neg Bool.false_ne_true] at hbound
      have hlow : left = .atLower := by simp [left, hup]
      rw [hlow]
      exact ⟨hbound, by rw [Rests, ← hs.lowerOf, hbound]; rfl⟩
    | true =>
      rw [hup, if_pos rfl] at hbound
      by_cases hfixed : s.lowerOf (t.basicColumn r) = .fin β
      · have hlow : left = .atLower := by simp [left, hfixed, hbound]
        rw [hlow]
        exact ⟨hfixed, by rw [Rests, ← hs.lowerOf, hfixed]; rfl⟩
      · have hbne : (s.lowerOf (t.basicColumn r) != Exact.fin β) = true := by
          cases hl : s.lowerOf (t.basicColumn r) with
          | fin q =>
            rw [Exact.fin_bne, decide_eq_true_eq]
            exact fun he => hfixed (by rw [hl, he])
          | _ => rfl
        have hhigh : left = .atUpper := by simp [left, hup, hbound, hbne]
        rw [hhigh]
        exact ⟨hbound, by rw [Rests, ← hs.upperOf, hbound]; rfl⟩
  have hmem : ∀ k, (t.pivot r j).InBasis k ↔ k = j ∨ t.InBasis k ∧ k ≠ t.basicColumn r :=
    hb.derived.inBasis_pivot hb.complete hr hj
  refine ⟨hof, by rw [hexchange], ⟨by rw [hexchange], ?_, ?_, fun k hk hin => ?_, fun k hk hkn => ?_⟩,
    ⟨fun k hk hkn => ?_, fun k hk => ?_⟩⟩
  · have hbase : s'.base = s.base := by rw [hexchange]
    rw [hbase]
    exact hb.derived.pivot hr hpivot
  · exact hb.complete.pivot hb.derived.head hr
  · rw [hstatus]
    rcases (hmem k).mp hin with rfl | ⟨hin', hkne⟩
    · rw [if_neg (Ne.symm hne), if_pos rfl]
    · rw [if_neg hkne]
      split_ifs
      · rfl
      · exact hb.basic k hk hin'
  · rw [hmem, not_or, not_and, not_not] at hkn
    rw [hstatus]
    by_cases hkr : k = t.basicColumn r
    · rw [if_pos hkr, hkr]
      exact hleft.2
    · rw [if_neg hkr, if_neg hkn.1]
      exact hb.rests k hk fun hin => hkr (hkn.2 hin)
  · rw [hmem, not_or, not_and, not_not] at hkn
    rw [hvalue k hk]
    by_cases hkr : k = t.basicColumn r
    · rw [if_pos hkr, hkr, hleft.1]
    · have hkn' : ¬ t.InBasis k := fun hin => hkr (hkn.2 hin)
      rw [if_neg hkr, Tableau.ray_of_nonbasic hkn', if_neg hkn.1, mul_zero, add_zero,
        ← hp.finite k hk, hp.nonbasic k hk hkn']
      unfold nonbasicValue
      rw [hstatus, if_neg hkr, if_neg hkn.1, hlower, hupper]
  · have hfinite : ∃ q, s'.valueOf k = .fin q := by
      rw [hvalue k hk]
      split_ifs
      · exact ⟨_, rfl⟩
      · exact ⟨_, rfl⟩
    obtain ⟨q, hq⟩ := hfinite
    rw [val_of_valueOf hq, hq]

end BranchAndCut.Lp.Simplex

import BranchAndCut.Proofs.Lp.Verdict

/-! # The solution of a solve is certified

The dual values are read off the slack columns of the tableau; pricing with them
is pricing with the tableau itself. So the reduced costs bound what any feasible
point can gain, the slopes of the violations bound what any feasible point can
repair, and an improving column that nothing stops gives an improving ray. -/

namespace BranchAndCut.Lp.Simplex

section Solving

variable [Rooted ℚ] {p : Problem (Exact ℚ)} {c : Settings (Exact ℚ)} {s : Simplex (Exact ℚ)}
  {t : Tableau (Exact ℚ)} {primal dual pivot : ℚ} {j : Nat}

/-! ## Points and columns -/

theorem point_eq (hs : s.Of p) (hp : s.Placed p t) (status : Status) (effort : Effort)
    (hj : j < p.numCols) : (s.solution status effort).x.getD j 0 = .fin (s.val j) ∧
    (s.solution status effort).point j = s.val j := by
  have hlt : j < p.width := Nat.lt_add_right _ hj
  have hx : (s.solution status effort).x.getD j 0 = s.valueOf j := by
    have hj' : j < s.values.size := hs.values.symm ▸ hlt
    show (s.values.extract 0 s.numCols).getD j 0 = s.values.getD j 0
    rw [hs.numCols]
    simp [hj, hj']
  unfold Solution.point
  rw [hx, hp.finite j hlt]
  exact ⟨rfl, rfl⟩

/-- The basis of the solution is that of the tableau. -/
theorem statusOf_eq (hs : s.Of p) (status : Status) (effort : Effort) (hlt : j < p.width) :
    (s.solution status effort).statusOf j = s.statusOf j := by
  have hj : j < s.status.size := hs.status.symm ▸ hlt
  have hn : p.numCols ≤ p.width := Nat.le_add_right _ _
  show ((s.status.extract 0 s.numCols).toList ++ (s.status.extract s.numCols s.width).toList).getD j
    .basic = s.status.getD j .basic
  rw [← Array.toList_append, Array.extract_append_extract, hs.width]
  have hall : s.status.extract (min 0 s.numCols) (max s.numCols p.width) = s.status := by
    rw [hs.numCols, max_eq_right hn, ← hs.status]
    simp
  rw [hall]
  simp [hj]

theorem costOf_slack {k : Nat} (hk : p.numCols ≤ k) : p.costOf k = 0 := by
  unfold Problem.costOf
  rw [getD_of_size_le _ _ hk, Exact.zero_def, Exact.toField_fin]

/-- Slacks cost nothing. -/
theorem objectiveAt_eq {x z : Nat → ℚ} (h : ∀ j < p.numCols, z j = x j) :
    p.objectiveAt x = ∑ k ∈ Finset.range p.width, p.costOf k * z k := by
  unfold Problem.objectiveAt Problem.width
  rw [Finset.sum_range_add, add_eq_left.mpr]
  · exact Finset.sum_congr rfl fun k hk => by rw [h k (Finset.mem_range.mp hk)]
  · exact Finset.sum_eq_zero fun k _ => by rw [costOf_slack (Nat.le_add_right _ _), zero_mul]

variable (hv : p.Valid)

include hv

theorem extend_congr {x y : Nat → ℚ} (h : ∀ j < p.numCols, x j = y j) (j : Nat) :
    p.extend x j = p.extend y j := by
  unfold Problem.extend
  split
  · next hj => exact h j hj
  · unfold Matrix.apply
    rw [hv.cols]
    exact Finset.sum_congr rfl fun k hk => by rw [h k (Finset.mem_range.mp hk)]

theorem extend_extend (x : Nat → ℚ) (j : Nat) : p.extend (p.extend x) j = p.extend x j :=
  extend_congr hv (fun _ hj => if_pos hj) j

/-! ## Reading a state -/

/-- The dual values are the costs of the basic columns, carried to the slacks. -/
theorem rowDuals_spec (hs : s.Of p) (hb : s.Based p t) : s.rowDuals.size = p.numRows ∧
    ∀ r < p.numRows, s.rowDuals.getD r 0 = .fin (-∑ i ∈ Finset.range t.rows.size,
      p.costOf (t.basicColumn i) * t.entry i (p.numCols + r)) := by
  unfold rowDuals
  rw [hb.tableau, hs.numRows]
  refine fold_induction (fun n (duals : Array (Exact ℚ)) => duals.size = p.numRows ∧
    ∀ r < p.numRows, duals.getD r 0 = .fin (-∑ i ∈ Finset.range n,
      p.costOf (t.basicColumn i) * t.entry i (p.numCols + r))) ?_ ?_
  · refine ⟨Array.size_replicate, fun r hr => ?_⟩
    simp [hr, Exact.zero_def]
  · rintro i hi duals ⟨hsize, hvalues⟩
    dsimp only
    rw [cost_getD hv hs, Exact.zero_def, Exact.fin_beq]
    by_cases hzero : p.costOf (t.basicColumn i) = 0
    · rw [if_pos (by simpa using hzero)]
      refine ⟨hsize, fun r hr => ?_⟩
      rw [← Exact.zero_def, hvalues r hr, Finset.sum_range_succ, hzero, zero_mul, add_zero]
    · rw [if_neg (by simpa using hzero)]
      refine ⟨by rw [Array.size_mapIdx, hsize], fun r hr => ?_⟩
      rw [← Exact.zero_def, getD_mapIdx _ _ _ 0, if_pos (hsize.symm ▸ hr), hvalues r hr, hs.numCols,
        hb.derived.numeric.row_getD, Exact.fin_mul, Exact.fin_sub, Finset.sum_range_succ, neg_add,
        sub_eq_add_neg]

theorem describes (hwf : p.a.WellFormed) (hs : s.Of p) (hp : s.Placed p t) (status : Status)
    (effort : Effort) : (s.solution status effort).Describes p := by
  have hpoint := fun j (hj : j < p.numCols) => point_eq hs hp status effort hj
  have hsize : (s.solution status effort).x.size = p.numCols := by
    show (s.values.extract 0 s.numCols).size = p.numCols
    rw [hs.numCols, Array.size_extract, hs.values]
    unfold Problem.width
    omega
  have hlists : Matrix.Lists (s.solution status effort).x (s.solution status effort).point :=
    fun k hk => by
      rw [hsize] at hk
      rw [(hpoint k hk).1, (hpoint k hk).2]
  obtain ⟨out, hout, houtSize, houtLists⟩ :=
    Matrix.mulVec?_lists hwf hv.stored hv.byColumn (hsize.trans hv.cols.symm) hlists
  have hactivity : (s.solution status effort).rowActivity = out := by
    show ((s.problem.a.mulVec? (s.solution status effort).x
      (Array.replicate s.numRows 0) 1 0).getD #[]) = out
    rw [hs.problem, hs.numRows, ← hv.rows, hout]
    rfl
  refine ⟨hsize, fun j hj => ?_, ?_, fun i hi => ?_⟩
  · rw [(hpoint j hj).1, (hpoint j hj).2]
  · rw [hactivity, houtSize, hv.rows]
  · rw [hactivity]
    exact houtLists i (by rwa [houtSize, hv.rows])

section Read

variable (hwf : p.a.WellFormed) (hs : s.Of p) (hb : s.Based p t) (status : Status)
  (effort : Effort)

include hwf hs hb

/-- The solutions of the tableau are the values of the columns at points. -/
theorem solves_iff (z : Nat → ℚ) :
    t.Solves p.width z ↔ ∀ j < p.width, z j = p.extend z j :=
  (hb.derived.solves z).trans ((hv.base_solves hwf hs.base).2 z)

/-- Column `j` of the matrix, expressed in the slack columns of a row. -/
theorem entry_eq_slacks {i : Nat} (hi : i < t.rows.size) (hj : j < p.numCols) :
    t.entry i j = -∑ r ∈ Finset.range p.numRows, t.entry i (p.numCols + r) * p.a.value r j := by
  let z : Nat → ℚ := fun k =>
    if k < p.numCols then (if k = j then 1 else 0) else p.a.value (k - p.numCols) j
  have hz : t.Solves p.width z := by
    refine (solves_iff hv hwf hs hb z).mpr fun k hk => ?_
    unfold Problem.extend Matrix.apply
    rw [hv.cols]
    split
    · rfl
    · next hge =>
      have hsum : ∑ k' ∈ Finset.range p.numCols, p.a.value (k - p.numCols) k' * z k' =
          ∑ k' ∈ Finset.range p.numCols,
            p.a.value (k - p.numCols) k' * if k' = j then 1 else 0 :=
        Finset.sum_congr rfl fun k' hk' => by rw [show z k' = _ from if_pos (Finset.mem_range.mp hk')]
      rw [hsum]
      simp [z, hge, hj]
  have hrow := hz i hi
  unfold Problem.width at hrow
  rw [Finset.sum_range_add] at hrow
  have hcols : ∑ k ∈ Finset.range p.numCols, t.entry i k * z k = t.entry i j := by
    have hsum : ∑ k ∈ Finset.range p.numCols, t.entry i k * z k =
        ∑ k ∈ Finset.range p.numCols, t.entry i k * if k = j then 1 else 0 :=
      Finset.sum_congr rfl fun k hk => by rw [show z k = _ from if_pos (Finset.mem_range.mp hk)]
    rw [hsum]
    simp [hj]
  have hslacks : ∑ r ∈ Finset.range p.numRows, t.entry i (p.numCols + r) * z (p.numCols + r) =
      ∑ r ∈ Finset.range p.numRows, t.entry i (p.numCols + r) * p.a.value r j :=
    Finset.sum_congr rfl fun r _ => by simp [z]
  rw [hcols, hslacks] at hrow
  linarith

/-- **Pricing with the dual values is pricing with the tableau.** -/
theorem costOf_sub_duals (hj : j < p.numCols) :
    p.costOf j - p.a.applyTranspose (s.solution status effort).duals j = prices p s t false j := by
  obtain ⟨-, hduals⟩ := rowDuals_spec hv hs hb
  have hread : ∀ r < p.numRows, (s.solution status effort).duals r =
      -∑ i ∈ Finset.range t.rows.size, p.costOf (t.basicColumn i) * t.entry i (p.numCols + r) := by
    intro r hr
    unfold Solution.duals
    show (s.rowDuals.getD r 0).toField = _
    rw [hduals r hr, Exact.toField_fin]
  have hprices : prices p s t false j =
      t.reduced p.costOf (fun i => p.costOf (t.basicColumn i)) j := rfl
  rw [hprices]
  unfold Tableau.reduced Matrix.applyTranspose
  rw [hv.rows]
  congr 1
  calc ∑ r ∈ Finset.range p.numRows, (s.solution status effort).duals r * p.a.value r j
      = ∑ r ∈ Finset.range p.numRows, ∑ i ∈ Finset.range t.rows.size,
          p.costOf (t.basicColumn i) * -(t.entry i (p.numCols + r) * p.a.value r j) := by
        refine Finset.sum_congr rfl fun r hr => ?_
        rw [hread r (Finset.mem_range.mp hr), neg_mul, Finset.sum_mul, ← Finset.sum_neg_distrib]
        exact Finset.sum_congr rfl fun i _ => by ring
    _ = ∑ i ∈ Finset.range t.rows.size, p.costOf (t.basicColumn i) * t.entry i j := by
        rw [Finset.sum_comm]
        refine Finset.sum_congr rfl fun i hi => ?_
        rw [← Finset.mul_sum, Finset.sum_neg_distrib,
          entry_eq_slacks hv hwf hs hb (Finset.mem_range.mp hi) hj]

theorem reducedCosts_spec : (s.solution status effort).reducedCosts.size = p.numCols ∧
    ∀ j < p.numCols, (s.solution status effort).reducedCosts.getD j 0 =
      .fin (p.costOf j - p.a.applyTranspose (s.solution status effort).duals j) := by
  obtain ⟨hsize, hduals⟩ := rowDuals_spec hv hs hb
  have hlists : Matrix.Lists s.rowDuals (s.solution status effort).duals := by
    intro r hr
    rw [hsize] at hr
    have hread : (s.solution status effort).duals r = (s.rowDuals.getD r 0).toField := rfl
    rw [hread, hduals r hr, Exact.toField_fin]
  have hcost : Matrix.Lists p.cost p.costOf := by
    intro k hk
    have hmem : p.cost.getD k 0 ∈ p.cost := by simp [hk]
    exact (Exact.fin_toField (hv.cost _ hmem)).symm
  obtain ⟨out, hout, houtSize, houtLists⟩ := Matrix.mulVecTranspose?_lists hwf hv.stored
    (hsize.trans hv.rows.symm) hlists (hv.cols.symm : p.cost.size = p.a.numCols) hcost
  have hcosts : (s.solution status effort).reducedCosts =
      out.mapIdx fun j d => if s.statusOf j = .basic then 0 else d := by
    show ((s.problem.a.mulVecTranspose? s.rowDuals s.problem.cost (-1) 1).getD
      s.problem.cost).mapIdx _ = _
    rw [hs.problem, hout]
    rfl
  rw [hv.cols] at houtSize
  rw [hcosts]
  refine ⟨by rw [Array.size_mapIdx, houtSize], fun j hj => ?_⟩
  rw [getD_mapIdx _ _ _ 0, if_pos (houtSize.symm ▸ hj), houtLists j (houtSize.symm ▸ hj)]
  split
  · next hbasic =>
    have hlt : j < p.width := Nat.lt_add_right _ hj
    obtain ⟨i, hi, rfl⟩ := (hb.inBasis_iff hlt).mpr hbasic
    have hprices : prices p s t false (t.basicColumn i) =
        t.reduced p.costOf (fun i => p.costOf (t.basicColumn i)) (t.basicColumn i) := rfl
    rw [costOf_sub_duals hv hwf hs hb status effort hj, hprices,
      hb.derived.reduced_basic hb.complete _ _ hi, sub_self, Exact.zero_def]
  · rfl

end Read

/-! ## Certificates -/

section Certificates

variable (hs : s.Of p) (hb : s.Based p t) (hp : s.Placed p t)

include hs hb

omit hv in
theorem nonbasic_eq (status : Status) (effort : Effort) :
    (s.solution status effort).nonbasic p = t.nonbasic p.width := by
  unfold Solution.nonbasic Tableau.nonbasic
  refine Finset.filter_congr fun j hj => ?_
  have hlt := Finset.mem_range.mp hj
  rw [statusOf_eq hs status effort hlt, Ne, ← hb.inBasis_iff hlt]

omit hv in
theorem basic_eq (status : Status) (effort : Effort) :
    (s.solution status effort).basic p = (Finset.range p.width).filter fun j => t.InBasis j := by
  unfold Solution.basic
  refine Finset.filter_congr fun j hj => ?_
  have hlt := Finset.mem_range.mp hj
  rw [statusOf_eq hs status effort hlt, ← hb.inBasis_iff hlt]

include hp

/-- A column that is not basic is between its bounds. -/
theorem val_between (ho : p.Ordered) (hlt : j < p.width) (hj : ¬ t.InBasis j) :
    p.lowerOf j ≤ .fin (s.val j) ∧ .fin (s.val j) ≤ p.upperOf j := by
  have hrests := hb.rests j hlt hj
  have hvalue := hp.nonbasic j hlt hj
  have hle := hv.lower_le_upper ho hlt
  have hne := Exact.ne_nan_of_le hle
  rw [hp.finite j hlt] at hvalue
  unfold Rests at hrests
  unfold nonbasicValue at hvalue
  rw [hs.lowerOf, hs.upperOf] at hvalue
  cases hst : s.statusOf j with
  | basic => exact (statusOf_ne_basic hb hlt hj hst).elim
  | atLower =>
    rw [hst] at hvalue
    rw [hvalue]
    exact ⟨Exact.le_refl' hne.1, hle⟩
  | atUpper =>
    rw [hst] at hvalue
    rw [hvalue]
    exact ⟨hle, Exact.le_refl' hne.2⟩
  | atZero =>
    rw [hst] at hrests
    rw [hrests.1, hrests.2]
    exact ⟨trivial, trivial⟩

/-- Without improving columns the columns at bounds gain little at a feasible point. -/
theorem settled_sum (hdual : s.settings.tolDual = .fin dual) {f : Nat → ℚ}
    (hnone : ∀ j < p.width, s.improvingDirection? j (.fin (f j)) = none) {y : Nat → ℚ}
    (hy : p.Feasible y) :
    -(dual * ∑ j ∈ t.nonbasic p.width, |p.extend y j - s.val j|) ≤
      ∑ j ∈ t.nonbasic p.width, f j * (p.extend y j - s.val j) := by
  rw [Finset.mul_sum, ← Finset.sum_neg_distrib]
  refine Finset.sum_le_sum fun j hj => ?_
  obtain ⟨hrange, hjn⟩ := Finset.mem_filter.mp hj
  have hlt := Finset.mem_range.mp hrange
  obtain ⟨hl, hu⟩ := hv.within_of_feasible hy hlt
  exact settled_of_none hs hb hp hlt hjn hdual (hnone j hlt) hl hu

/-- The slope of a violation repairs at most the violation at a feasible value. -/
theorem slope_mul_le (htol : c.Tolerances primal dual pivot) (hset : s.settings = c) {i : Nat}
    (hi : i < t.rows.size) {q : ℚ} (hl : p.lowerOf (t.basicColumn i) ≤ .fin q)
    (hu : .fin q ≤ p.upperOf (t.basicColumn i)) :
    s.slope t i * (q - s.val (t.basicColumn i)) ≤
      -p.violation primal (t.basicColumn i) (s.val (t.basicColumn i)) := by
  have hlt := hb.derived.basic_lt hb.complete hi
  rw [(slope_eq hs hb hp (hset ▸ htol.tolPrimal) hi).2]
  by_cases hbelow : p.Below primal (t.basicColumn i) (s.val (t.basicColumn i))
  · obtain ⟨l, hlower, hviolation, -⟩ := hv.violation_of_below hlt htol.primal_nonneg hbelow
    rw [hlower, Exact.fin_le] at hl
    rw [if_pos hbelow, hviolation]
    linarith
  · rw [if_neg hbelow]
    by_cases habove : p.Above primal (t.basicColumn i) (s.val (t.basicColumn i))
    · obtain ⟨u, hupper, hviolation, -⟩ :=
        hv.violation_of_above hlt htol.primal_nonneg hbelow habove
      rw [hupper, Exact.fin_le] at hu
      rw [if_pos habove, hviolation]
      linarith
    · unfold Problem.violation
      rw [if_neg hbelow, if_neg habove, if_neg habove, zero_mul, neg_zero]

omit hp in
/-- A basic column that lets the entering one pass can go on for ever. -/
theorem passing_recedes {i : Nat} (hi : i < t.rows.size) {α : ℚ}
    (hnone : s.blockingStep? false (t.basicColumn i) (.fin α) = none) :
    (p.lowerOf (t.basicColumn i) ≠ .negInf → 0 ≤ -α) ∧
      (p.upperOf (t.basicColumn i) ≠ .posInf → -α ≤ 0) := by
  have hlt := hb.derived.basic_lt hb.complete hi
  obtain ⟨hdown, hup⟩ := blockingStep?_none hnone
  rw [hs.lowerOf] at hdown
  rw [hs.upperOf] at hup
  constructor
  · intro hbound
    obtain ⟨l, hl⟩ := (hv.lower_cases hlt).resolve_left hbound
    by_contra hneg
    have hfinite := hdown (by linarith)
    rw [hl] at hfinite
    cases hfinite
  · intro hbound
    obtain ⟨u, hu⟩ := (hv.upper_cases hlt).resolve_left hbound
    by_contra hpos
    have hfinite := hup (by linarith)
    rw [hu] at hfinite
    cases hfinite

omit hp in
/-- So can an entering column without an opposite bound. -/
theorem entering_recedes (hlt : j < p.width) (hj : ¬ t.InBasis j) {δ : ℚ}
    (hleaves : Leaves (s.statusOf j) δ)
    (hrange : Scalar.isFinite (s.upperOf j - s.lowerOf j) = false) :
    (p.lowerOf j ≠ .negInf → 0 ≤ δ) ∧ (p.upperOf j ≠ .posInf → δ ≤ 0) := by
  have hrests := hb.rests j hlt hj
  unfold Rests at hrests
  unfold Leaves at hleaves
  rw [hs.lowerOf, hs.upperOf] at hrange
  cases hst : s.statusOf j with
  | basic => exact (statusOf_ne_basic hb hlt hj hst).elim
  | atLower =>
    rw [hst] at hrests hleaves
    obtain ⟨l, hl⟩ := Exact.isFinite_iff.mp hrests
    refine ⟨fun _ => by rw [hleaves]; norm_num, fun hbound => ?_⟩
    obtain ⟨u, hu⟩ := (hv.upper_cases hlt).resolve_left hbound
    rw [hl, hu] at hrange
    cases hrange
  | atUpper =>
    rw [hst] at hrests hleaves
    obtain ⟨u, hu⟩ := Exact.isFinite_iff.mp hrests
    refine ⟨fun hbound => ?_, fun _ => by rw [hleaves]; norm_num⟩
    obtain ⟨l, hl⟩ := (hv.lower_cases hlt).resolve_left hbound
    rw [hl, hu] at hrange
    cases hrange
  | atZero =>
    rw [hst] at hrests
    exact ⟨fun h => (h hrests.1).elim, fun h => (h hrests.2).elim⟩

variable (hwf : p.a.WellFormed)

include hwf

/-- Where the values solve the constraint rows, they are those of the solution. -/
theorem val_eq_extend (hsolves : t.Solves p.width s.val) (status : Status) (effort : Effort)
    (hlt : j < p.width) : s.val j = p.extend (s.solution status effort).point j := by
  rw [(solves_iff hv hwf hs hb s.val).mp hsolves j hlt]
  exact extend_congr hv (fun k hk => (point_eq hs hp status effort hk).2.symm) j

theorem distance_eq (hsolves : t.Solves p.width s.val) (status : Status) (effort : Effort)
    (y : Nat → ℚ) : (s.solution status effort).distance p y =
      ∑ j ∈ t.nonbasic p.width, |p.extend y j - s.val j| := by
  unfold Solution.distance
  rw [nonbasic_eq hs hb]
  refine Finset.sum_congr rfl fun j hj => ?_
  rw [val_eq_extend hv hs hb hp hwf hsolves status effort
    (Finset.mem_range.mp (Finset.mem_filter.mp hj).1)]

theorem optimal_of_shows (ho : p.Ordered) (hset : s.settings = c)
    (htol : c.Tolerances primal dual pivot) (hshows : s.Shows p t .optimal) (effort : Effort) :
    (s.solution .optimal effort).Optimal p primal dual := by
  obtain ⟨hsolves, hslopes, hnone⟩ := hshows
  have hprimal : s.settings.tolPrimal = .fin primal := hset ▸ htol.tolPrimal
  have hdual : s.settings.tolDual = .fin dual := hset ▸ htol.tolDual
  have hval : ∀ j < p.width, s.val j = p.extend (s.solution .optimal effort).point j :=
    fun j hlt => val_eq_extend hv hs hb hp hwf hsolves .optimal effort hlt
  have hpoint := fun j (hj : j < p.numCols) => (point_eq hs hp .optimal effort hj).2
  have hminimal : ∀ y, p.Feasible y → p.objectiveAt (s.solution .optimal effort).point ≤
      p.objectiveAt y + dual * (s.solution .optimal effort).distance p y := by
    intro y hy
    have hysolves : t.Solves p.width (p.extend y) :=
      (solves_iff hv hwf hs hb _).mpr fun j _ => (extend_extend hv y j).symm
    have hsettled := settled_sum hv hs hb hp hdual hnone hy
    have hpriced := hb.derived.sum_sub_priced hb.complete hsolves hysolves p.costOf
      fun i => p.costOf (t.basicColumn i)
    have hx := objectiveAt_eq (p := p) (z := s.val) fun j hj => (hpoint j hj).symm
    have hyobj := objectiveAt_eq (p := p) (x := y) (z := p.extend y) fun j hj => if_pos hj
    simp only [sub_self, zero_mul, Finset.sum_const_zero, zero_add, mul_sub,
      Finset.sum_sub_distrib] at hpriced hsettled
    rw [distance_eq hv hs hb hp hwf hsolves, hx, hyobj]
    have hprices : ∀ j, prices p s t false j =
        t.reduced p.costOf (fun i => p.costOf (t.basicColumn i)) j := fun j => rfl
    simp only [hprices] at hsettled
    linarith
  obtain ⟨hsize, hreduced⟩ := reducedCosts_spec hv hwf hs hb .optimal effort
  obtain ⟨hdualsSize, hduals⟩ := rowDuals_spec hv hs hb
  refine ⟨describes hv hwf hs hp .optimal effort, fun j hlt => ?_, hdualsSize, fun r hr => ?_,
    hsize, hreduced, hminimal, fun hzero y hy => ?_⟩
  · rw [← hval j hlt]
    by_cases hin : t.InBasis j
    · obtain ⟨i, hi, rfl⟩ := hin
      have hslope := (slope_eq hs hb hp hprimal hi).2
      rw [hslopes i hi] at hslope
      refine hv.within_of_not hlt (fun hbelow => ?_) fun habove => ?_
      · rw [if_pos hbelow] at hslope
        norm_num at hslope
      · split_ifs at hslope <;> norm_num at hslope
    · obtain ⟨hl, hu⟩ := val_between hv hs hb hp ho hlt hin
      have hslack : (0 : Exact ℚ) ≤ .fin (primal * (1 + |s.val j|)) := by
        have hnonneg := htol.primal_nonneg
        exact Exact.zero_le_fin.mpr (by positivity)
      exact ⟨Exact.sub_le_fin hslack hl, Exact.fin_le_add hslack hu⟩
  · have hread : (s.solution .optimal effort).duals r = (s.rowDuals.getD r 0).toField := rfl
    show s.rowDuals.getD r 0 = _
    rw [hread, hduals r hr, Exact.toField_fin]
  · have hle := hminimal y hy
    rwa [hzero, zero_mul, add_zero] at hle

theorem refutes_of_shows (hset : s.settings = c) (htol : c.Tolerances primal dual pivot)
    (hshows : s.Shows p t .infeasible) (effort : Effort) :
    (s.solution .infeasible effort).Refutes p primal dual := by
  obtain ⟨hsolves, ⟨i₀, hi₀, hslope⟩, hnone⟩ := hshows
  have hdual : s.settings.tolDual = .fin dual := hset ▸ htol.tolDual
  have hval : ∀ j < p.width, s.val j = p.extend (s.solution .infeasible effort).point j :=
    fun j hlt => val_eq_extend hv hs hb hp hwf hsolves .infeasible effort hlt
  have hsum : ∑ j ∈ (s.solution .infeasible effort).basic p,
      p.violation primal j (p.extend (s.solution .infeasible effort).point j) =
        ∑ i ∈ Finset.range t.rows.size,
          p.violation primal (t.basicColumn i) (s.val (t.basicColumn i)) := by
    rw [basic_eq hs hb, hb.derived.sum_basic hb.complete]
    refine Finset.sum_congr rfl fun i hi => ?_
    rw [hval _ (hb.derived.basic_lt hb.complete (Finset.mem_range.mp hi))]
  have hbounded : ∀ y, p.Feasible y → ∑ j ∈ (s.solution .infeasible effort).basic p,
      p.violation primal j (p.extend (s.solution .infeasible effort).point j) ≤
        dual * (s.solution .infeasible effort).distance p y := by
    intro y hy
    have hysolves : t.Solves p.width (p.extend y) :=
      (solves_iff hv hwf hs hb _).mpr fun j _ => (extend_extend hv y j).symm
    have hsettled := settled_sum hv hs hb hp hdual hnone hy
    have hpriced := hb.derived.sum_sub_priced hb.complete hsolves hysolves (fun _ => 0) (s.slope t)
    have hrepaired : ∑ i ∈ Finset.range t.rows.size, s.slope t i *
        (p.extend y (t.basicColumn i) - s.val (t.basicColumn i)) ≤
          ∑ i ∈ Finset.range t.rows.size,
            -p.violation primal (t.basicColumn i) (s.val (t.basicColumn i)) := by
      refine Finset.sum_le_sum fun i hi => ?_
      have hi' := Finset.mem_range.mp hi
      obtain ⟨hl, hu⟩ := hv.within_of_feasible hy (hb.derived.basic_lt hb.complete hi')
      exact slope_mul_le hv hs hb hp htol hset hi' hl hu
    have hprices : ∀ j, prices p s t true j = t.reduced (fun _ => 0) (s.slope t) j := fun j => rfl
    simp only [hprices] at hsettled
    simp only [zero_mul, Finset.sum_const_zero, zero_sub, neg_mul, Finset.sum_neg_distrib]
      at hpriced hrepaired
    rw [hsum, distance_eq hv hs hb hp hwf hsolves]
    linarith
  have hlt₀ := hb.derived.basic_lt hb.complete hi₀
  have hviolated : p.Below primal (t.basicColumn i₀) (s.val (t.basicColumn i₀)) ∨
      p.Above primal (t.basicColumn i₀) (s.val (t.basicColumn i₀)) := by
    by_contra hnot
    rw [not_or] at hnot
    rw [(slope_eq hs hb hp (hset ▸ htol.tolPrimal) hi₀).2, if_neg hnot.1, if_neg hnot.2] at hslope
    exact hslope rfl
  refine ⟨describes hv hwf hs hp .infeasible effort, ⟨t.basicColumn i₀, ?_, ?_⟩, hbounded,
    fun hzero y hy => ?_⟩
  · rw [basic_eq hs hb]
    exact Finset.mem_filter.mpr ⟨Finset.mem_range.mpr hlt₀, i₀, hi₀, rfl⟩
  · rw [← hval _ hlt₀]
    exact hviolated
  · have hle := hbounded y hy
    rw [hzero, zero_mul, hsum] at hle
    have hpos : 0 < ∑ i ∈ Finset.range t.rows.size,
        p.violation primal (t.basicColumn i) (s.val (t.basicColumn i)) := by
      refine Finset.sum_pos' (fun i hi => ?_) ⟨i₀, Finset.mem_range.mpr hi₀, ?_⟩
      · exact hv.violation_nonneg
          (hb.derived.basic_lt hb.complete (Finset.mem_range.mp hi)) htol.primal_nonneg _
      · by_cases hbelow : p.Below primal (t.basicColumn i₀) (s.val (t.basicColumn i₀))
        · obtain ⟨l, -, hviolation, hpos⟩ :=
            hv.violation_of_below hlt₀ htol.primal_nonneg hbelow
          rwa [hviolation]
        · obtain ⟨u, -, hviolation, hpos⟩ := hv.violation_of_above hlt₀ htol.primal_nonneg hbelow
            (hviolated.resolve_left hbelow)
          rwa [hviolation]
    linarith

omit hp in
/-- An improving column that nothing stops gives a direction without end. -/
theorem recedes_of_shows (hset : s.settings = c) (htol : c.Tolerances primal dual 0)
    (hshows : s.Shows p t .unbounded) : ∃ d, p.Recedes d ∧ p.objectiveAt d < 0 := by
  obtain ⟨j, δ, hlt, hleaves, himproves, hrange, hpass⟩ := hshows
  have hj : ¬ t.InBasis j := fun hin => hleaves.ne_basic (hb.basic j hlt hin)
  let d : Nat → ℚ := fun k => δ * t.ray j k
  have hzero : t.Solves p.width fun _ => 0 := fun i _ => by simp
  have hdsolves : t.Solves p.width d := by
    have hmoved := hzero.add_mul (hb.derived.solves_ray hb.complete hj hlt) δ
    simpa only [zero_add] using hmoved
  have hextend : ∀ k < p.width, p.extend d k = d k := fun k hk =>
    ((solves_iff hv hwf hs hb d).mp hdsolves k hk).symm
  refine ⟨d, hv.recedes fun k hk => ?_, ?_⟩
  · rw [hextend k hk]
    by_cases hin : t.InBasis k
    · obtain ⟨i, hi, rfl⟩ := hin
      have hray : d (t.basicColumn i) = -(t.entry i j * δ) := by
        show δ * t.ray j (t.basicColumn i) = _
        rw [hb.derived.ray_basic hb.complete hj hi]
        ring
      rw [hray]
      rcases hpass i hi with hsmall | hnone
      · rw [hset, htol.tolPivot, Exact.abs_fin, Exact.fin_le] at hsmall
        have halpha : t.entry i j * δ = 0 := abs_nonpos_iff.mp hsmall
        rw [halpha, neg_zero]
        exact ⟨fun _ => le_refl _, fun _ => le_refl _⟩
      · exact passing_recedes hv hs hb hi hnone
    · have hray : d k = if k = j then δ else 0 := by
        show δ * t.ray j k = _
        rw [Tableau.ray_of_nonbasic hin, mul_ite, mul_one, mul_zero]
      rw [hray]
      by_cases hkj : k = j
      · rw [if_pos hkj, hkj]
        exact entering_recedes hv hs hb hlt hj hleaves hrange
      · rw [if_neg hkj]
        exact ⟨fun _ => le_refl _, fun _ => le_refl _⟩
  · have hpriced := hb.derived.sum_sub_priced hb.complete hzero hdsolves p.costOf
      fun i => p.costOf (t.basicColumn i)
    simp only [sub_self, zero_mul, Finset.sum_const_zero, zero_add, sub_zero] at hpriced
    have hmem : j ∈ t.nonbasic p.width := Finset.mem_filter.mpr ⟨Finset.mem_range.mpr hlt, hj⟩
    rw [objectiveAt_eq (p := p) (z := d) fun _ _ => rfl, hpriced,
      Finset.sum_eq_single_of_mem j hmem]
    · show t.reduced p.costOf (fun i => p.costOf (t.basicColumn i)) j * (δ * t.ray j j) < 0
      rw [Tableau.ray_of_nonbasic hj, if_pos rfl, mul_one, mul_comm]
      exact himproves
    · intro k hk hkj
      show _ * (δ * t.ray j k) = 0
      rw [Tableau.ray_of_nonbasic (Finset.mem_filter.mp hk).2, if_neg hkj, mul_zero, mul_zero]

end Certificates

/-! ## Solving -/

/-- The solvers for a problem: new ones, and ones that have solved before. -/
inductive Reachable (p : Problem (Exact ℚ)) (c : Settings (Exact ℚ)) : Simplex (Exact ℚ) → Prop
  | new {s : Simplex (Exact ℚ)} (h : Simplex.new p c = .ok s) : Reachable p c s
  | solve {s : Simplex (Exact ℚ)} (h : Reachable p c s) (warmStart : Option Basis) :
      Reachable p c (s.solve warmStart).2

omit hv in
theorem new_of (hwf : p.a.WellFormed) (hnew : Simplex.new p c = .ok s) :
    p.Valid ∧ s.Of p ∧ s.settings = c := by
  have hvalidate := validate_of_new hnew
  have hv := Problem.valid_of_validate hvalidate hwf
  obtain ⟨rows, hrows, -⟩ := Matrix.constraintRows?_tabulates hwf hv.stored
  rw [new_eq hvalidate] at hnew
  obtain rfl := Except.ok.inj hnew
  refine ⟨hv, ⟨rfl, rfl, rfl, rfl, ?_, Array.size_replicate, Array.size_replicate⟩, rfl⟩
  rw [hrows]
  rfl

/-- The state in which a solve starts to step. -/
theorem start_sound (hwf : p.a.WellFormed) (hs : s.Of p) (hset : s.settings = c)
    (htol : c.Tolerances primal dual pivot) (warmStart : Option Basis) (effort : Effort) :
    (s.start warmStart).1.Sound p c { effort } := by
  obtain ⟨hs', hset', t, hb, hp, hsolves⟩ :=
    start_spec hv hwf hs (hset ▸ tolPivot_nonneg htol) warmStart
  refine ⟨hs', hset'.trans hset, fun t₁ ht₁ => ?_, nofun⟩
  obtain rfl := Option.some.inj (hb.tableau.symm.trans ht₁)
  exact ⟨hb, hp, fun _ => hsolves⟩

/-- A solve reads its solution off a state that bears out the verdict. -/
theorem solve_after (hwf : p.a.WellFormed) (hs : s.Of p) (hset : s.settings = c)
    (htol : c.Tolerances primal dual pivot) (warmStart : Option Basis) :
    ∃ status effort, (s.solve warmStart).1 = (s.solve warmStart).2.solution status effort ∧
      After p c ((s.solve warmStart).2, { effort }, some status) := by
  have hafter := iterate_after hv hwf htol (start_sound hv hwf hs hset htol warmStart
    { warmStarted := (s.start warmStart).2 }) (2 * (s.start warmStart).1.settings.maxIter + 2)
  rw [solve_eq]
  exact ⟨_, _, rfl, hafter⟩

omit hv in
theorem Reachable.of (hwf : p.a.WellFormed) (hs : Reachable p c s) :
    p.Valid ∧ s.Of p ∧ s.settings = c := by
  induction hs with
  | new h => exact new_of hwf h
  | solve _ warmStart ih =>
    obtain ⟨hv, hof, hset⟩ := ih
    have ha := (hof.shaped hv hwf).solve_alike warmStart
    exact ⟨hv, hof.alike ha, ha.settings.trans hset⟩

omit hv in
/-- **The verdicts of the simplex method are certified.** From any basis, and
whatever was solved before: a solution called optimal is optimal up to the
tolerances, its values those of the solver; a solution called infeasible refutes
that there is a feasible point, up to the tolerances; and a program called
unbounded has an improving direction without end, if all pivots count. -/
theorem solve_certified (hwf : p.a.WellFormed) (ho : p.Ordered)
    (htol : c.Tolerances primal dual pivot) (hs : Reachable p c s) (warmStart : Option Basis) :
    let out := s.solve warmStart
    (out.1.status = .optimal → out.1.Optimal p primal dual) ∧
      (out.1.status = .infeasible → out.1.Refutes p primal dual) ∧
      (out.1.status = .optimal ∨ out.1.status = .infeasible →
        ∀ j < p.width, out.2.valueOf j = .fin (p.extend out.1.point j)) ∧
      (out.1.status = .unbounded → pivot = 0 → ∃ d, p.Recedes d ∧ p.objectiveAt d < 0) := by
  intro out
  obtain ⟨hv, hof, hset⟩ := hs.of hwf
  obtain ⟨status, effort, hsol, hof', hset', hshows⟩ := solve_after hv hwf hof hset htol warmStart
  have hstatus : out.1.status = status := by
    show (s.solve warmStart).1.status = status
    rw [hsol]
    rfl
  have hvalues : ∀ t, out.2.Based p t → out.2.Placed p t → t.Solves p.width out.2.val →
      ∀ j < p.width, out.2.valueOf j = .fin (p.extend out.1.point j) := by
    intro t hb hp hsolves j hlt
    show (s.solve warmStart).2.valueOf j = .fin (p.extend (s.solve warmStart).1.point j)
    rw [hsol, hp.finite j hlt, val_eq_extend hv hof' hb hp hwf hsolves status effort hlt]
  rw [hstatus]
  refine ⟨?_, ?_, ?_, ?_⟩
  · rintro rfl
    obtain ⟨t, hb, hp, hshow⟩ := hshows (.inl rfl)
    show (s.solve warmStart).1.Optimal p primal dual
    rw [hsol]
    exact optimal_of_shows hv hof' hb hp hwf ho hset' htol hshow effort
  · rintro rfl
    obtain ⟨t, hb, hp, hshow⟩ := hshows (.inr (.inl rfl))
    show (s.solve warmStart).1.Refutes p primal dual
    rw [hsol]
    exact refutes_of_shows hv hof' hb hp hwf hset' htol hshow effort
  · rintro (rfl | rfl)
    · obtain ⟨t, hb, hp, hshow⟩ := hshows (.inl rfl)
      exact hvalues t hb hp hshow.1
    · obtain ⟨t, hb, hp, hshow⟩ := hshows (.inr (.inl rfl))
      exact hvalues t hb hp hshow.1
  · rintro rfl rfl
    obtain ⟨t, hb, hp, hshow⟩ := hshows (.inr (.inr rfl))
    exact recedes_of_shows hv hof' hb hwf hset' htol hshow

end Solving

/-- Two columns and a row, solved to optimality from the slack basis. -/
theorem solve_certified_row :
    let p : Problem (Exact ℚ) :=
      { cost := #[.fin (-1), .fin (-1)]
        a := ⟨1, 2, .byColumn, #[[(0, .fin 1)], [(0, .fin 2)]]⟩
        rowLower := #[.negInf], rowUpper := #[.fin 4]
        colLower := #[.fin 0, .fin 0], colUpper := #[.fin 3, .posInf] }
    let c : Settings (Exact ℚ) :=
      { tolPrimal := .fin (1 / 1000), tolDual := .fin 0, tolPivot := .fin (1 / 1000) }
    ∃ s : Simplex (Exact ℚ), Simplex.new p c = .ok s ∧ (s.solve none).1.status = .optimal ∧
      (s.solve none).1.Optimal p (1 / 1000) 0 := by
  intro p c
  have hvalidate : p.validate = .ok () := by decide +kernel
  have hwf : p.a.WellFormed := ⟨rfl, by decide⟩
  have ho : p.Ordered := ⟨by decide +kernel, by decide +kernel⟩
  have htol : c.Tolerances (1 / 1000) 0 (1 / 1000) :=
    ⟨rfl, rfl, rfl, by norm_num, le_refl _, by norm_num⟩
  refine ⟨_, new_eq hvalidate, ?_, ?_⟩
  · decide +kernel
  · exact (solve_certified hwf ho htol (.new (new_eq hvalidate)) none).1 (by decide +kernel)

end BranchAndCut.Lp.Simplex

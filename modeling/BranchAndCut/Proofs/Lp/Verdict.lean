import BranchAndCut.Proofs.Lp.Pricing

/-! # The verdicts of the simplex method

A step keeps the state sound or ends with a verdict that the state bears out: no
improving column for the costs, or for the slopes of the violations, at values
that solve the constraint rows; or an improving ray that nothing stops. From this
the solution of a solve is certified. -/

namespace BranchAndCut.Lp.Simplex

variable [Rooted ℚ] {p : Problem (Exact ℚ)} {c : Settings (Exact ℚ)} {s : Simplex (Exact ℚ)}
  {t : Tableau (Exact ℚ)} {pace : Pace} {primal dual pivot : ℚ} {j : Nat}

/-- The slope of the violation of the basic column of a row. -/
def slope (s : Simplex (Exact ℚ)) (t : Tableau (Exact ℚ)) (i : Nat) : ℚ :=
  (s.violationSlope (t.basicColumn i)).toField

/-- The reduced costs of a phase: those of the violations, or those of the program. -/
def prices (p : Problem (Exact ℚ)) (s : Simplex (Exact ℚ)) (t : Tableau (Exact ℚ)) (phase1 : Bool) :
    Nat → ℚ :=
  if phase1 then t.reduced (fun _ => 0) (s.slope t)
  else t.reduced p.costOf fun i => p.costOf (t.basicColumn i)

/-- The state between two steps. The values solve the constraint rows unless
columns have been exchanged since the last fresh tableau. -/
structure Sound (p : Problem (Exact ℚ)) (c : Settings (Exact ℚ)) (s : Simplex (Exact ℚ))
    (pace : Pace) : Prop where
  of : s.Of p
  settings : s.settings = c
  basis : ∀ t, s.tableau = some t → s.Based p t ∧ s.Placed p t ∧
    (pace.sinceRefactor = 0 → t.Solves p.width s.val)
  verified : pace.verified = true → pace.sinceRefactor = 0

/-- What a verdict says about the state. -/
def Shows (p : Problem (Exact ℚ)) (s : Simplex (Exact ℚ)) (t : Tableau (Exact ℚ)) : Status → Prop
  | .optimal => t.Solves p.width s.val ∧ (∀ i < t.rows.size, s.slope t i = 0) ∧
      ∀ j < p.width, s.improvingDirection? j (.fin (prices p s t false j)) = none
  | .infeasible => t.Solves p.width s.val ∧ (∃ i < t.rows.size, s.slope t i ≠ 0) ∧
      ∀ j < p.width, s.improvingDirection? j (.fin (prices p s t true j)) = none
  | .unbounded => ∃ j δ, j < p.width ∧ Leaves (s.statusOf j) δ ∧ δ * prices p s t false j < 0 ∧
      s.Stops t j δ false .nothing
  | _ => True

/-- What holds after a step. -/
def After (p : Problem (Exact ℚ)) (c : Settings (Exact ℚ)) : Outcome (Exact ℚ) → Prop
  | (s, pace, none) => s.Sound p c pace
  | (s, _, some status) => s.Of p ∧ s.settings = c ∧
      (status = .optimal ∨ status = .infeasible ∨ status = .unbounded →
        ∃ t, s.Based p t ∧ s.Placed p t ∧ s.Shows p t status)

/-! ## One step -/

theorem violationSlope_eq (hs : s.Of p) (htol : s.settings.tolPrimal = .fin primal) {v : ℚ}
    (hvalue : s.valueOf j = .fin v) : s.violationSlope j =
      .fin (if p.Below primal j v then -1 else if p.Above primal j v then 1 else 0) := by
  unfold violationSlope
  dsimp only
  rw [hvalue, htol, hs.lowerOf, hs.upperOf, Exact.one_def, Exact.abs_fin, Exact.fin_add,
    Exact.fin_mul, Exact.zero_def, Exact.fin_neg]
  by_cases hbelow : p.Below primal j v
  · rw [if_pos hbelow]
    exact if_pos hbelow
  · rw [if_neg hbelow]
    refine (if_neg hbelow).trans ?_
    by_cases habove : p.Above primal j v
    · rw [if_pos habove]
      exact if_pos habove
    · rw [if_neg habove]
      exact if_neg habove

theorem slope_eq (hs : s.Of p) (hb : s.Based p t) (hp : s.Placed p t)
    (htol : s.settings.tolPrimal = .fin primal) {i : Nat} (hi : i < t.rows.size) :
    (s.violationSlopes t).getD i 0 = .fin (s.slope t i) ∧
      s.slope t i = if p.Below primal (t.basicColumn i) (s.val (t.basicColumn i)) then -1
        else if p.Above primal (t.basicColumn i) (s.val (t.basicColumn i)) then 1 else 0 := by
  have hslope := violationSlope_eq hs htol (hp.finite _ (hb.derived.basic_lt hb.complete hi))
  have hget : (s.violationSlopes t).getD i 0 = s.violationSlope (t.basicColumn i) := by
    simp [violationSlopes, hi]
  unfold slope
  rw [hget, hslope, Exact.toField_fin]
  exact ⟨rfl, rfl⟩

theorem cost_getD (hv : p.Valid) (hs : s.Of p) (k : Nat) : s.cost.getD k 0 = .fin (p.costOf k) := by
  unfold Problem.costOf
  rw [hs.cost, getD_append]
  by_cases hk : k < p.cost.size
  · have hmem : p.cost.getD k 0 ∈ p.cost := by simp [hk]
    rw [if_pos hk, Exact.fin_toField (hv.cost _ hmem)]
  · rw [if_neg hk, getD_of_size_le _ _ (not_lt.mp hk), Exact.zero_def, Exact.toField_fin]
    by_cases hslack : k - p.cost.size < p.numRows <;> simp [hslack]

/-- The reduced costs that are priced. -/
theorem priced_spec (hv : p.Valid) (hs : s.Of p) (hb : s.Based p t) (hp : s.Placed p t)
    (htol : s.settings.tolPrimal = .fin primal) (phase1 : Bool) {d : Array (Exact ℚ)}
    (hd : d = if phase1 then pricedColumns t (Array.replicate s.width 0) (s.violationSlopes t)
      else pricedColumns t s.cost
        ((Array.range t.rows.size).map fun i => s.cost.getD (t.basicColumn i) 0)) :
    d.size = p.width ∧ ∀ k < p.width, d.getD k 0 = .fin (prices p s t phase1 k) := by
  cases phase1 with
  | true =>
    rw [hd, if_pos rfl, hs.width]
    refine pricedColumns_spec hb Array.size_replicate (fun k hk => ?_)
      fun i hi => (slope_eq hs hb hp htol hi).1
    simp [hk, Exact.zero_def]
  | false =>
    rw [hd, if_neg Bool.false_ne_true]
    refine pricedColumns_spec hb ?_ (fun k _ => cost_getD hv hs k) fun i hi => ?_
    · rw [hs.cost, Array.size_append, Array.size_replicate]
      rfl
    · rw [← cost_getD hv hs]
      simp [hi]

theorem tolPivot_nonneg (htol : c.Tolerances primal dual pivot) : 0 ≤ c.tolPivot := by
  rw [htol.tolPivot]
  exact Exact.zero_le_fin.mpr htol.pivot_nonneg

section Steps

variable (hv : p.Valid) (hwf : p.a.WellFormed) (htol : c.Tolerances primal dual pivot)

include hv hwf htol

/-- A fresh tableau, counted in any way. -/
theorem refresh?_sound (hs : s.Of p) (hc : s.settings = c) (hb : s.Based p t) {s' : Simplex (Exact ℚ)}
    {pace' : Pace} (hrefresh : s.refresh? pace = some (s', pace')) :
    pace'.sinceRefactor = 0 ∧
      ∀ pace'' : Pace, pace''.sinceRefactor = 0 → s'.Sound p c pace'' := by
  obtain ⟨s₁, hrefactor, heq⟩ := Option.map_eq_some_iff.mp hrefresh
  obtain ⟨rfl, rfl⟩ := Prod.mk.inj heq
  have hpivot : 0 ≤ s.settings.tolPivot := hc ▸ tolPivot_nonneg htol
  obtain ⟨hof, hsettings, t', hb', hp', hsolves⟩ := refactor?_spec hv hwf hs hb hpivot hrefactor
  refine ⟨rfl, fun pace'' hzero => ⟨hof, hsettings.trans hc, fun t₁ ht₁ => ?_, fun _ => hzero⟩⟩
  obtain rfl := Option.some.inj (hb'.tableau.symm.trans ht₁)
  exact ⟨hb', hp', fun _ => hsolves⟩

/-- A move along an improving column. -/
theorem advance_after (h : s.Sound p c pace) (hb : s.Based p t) (hp : s.Placed p t)
    (hlt : j < p.width) {δ : ℚ} (hleaves : Leaves (s.statusOf j) δ) {phase1 : Bool}
    (himproves : δ * prices p s t phase1 j < 0) (bland : Bool) :
    After p c (s.advance t pace j (.fin δ) phase1 bland) := by
  have hj : ¬ t.InBasis j := fun hin => hleaves.ne_basic (hb.basic j hlt hin)
  have hstops := ratioTest_stops (j := j) hv h.of hb hp
    (h.settings ▸ tolPivot_nonneg htol) δ phase1 bland
  unfold advance
  dsimp only
  cases hratio : s.ratioTest t j (.fin δ) phase1 bland with
  | nothing =>
    rw [hratio] at hstops
    cases phase1 with
    | false =>
      exact ⟨h.of, h.settings, fun _ => ⟨t, hb, hp, j, δ, hlt, hleaves, himproves, hstops⟩⟩
    | true =>
      simp only [if_true]
      split
      · next s' pace' hrefresh =>
        split at hrefresh
        · obtain ⟨hzero, hsound⟩ := refresh?_sound hv hwf htol h.of h.settings hb hrefresh
          exact hsound _ hzero
        · cases hrefresh
      · exact ⟨h.of, h.settings, by simp⟩
  | ownBound step =>
    rw [hratio] at hstops
    obtain ⟨σ, rfl, hrange⟩ := hstops
    obtain ⟨hof, hsettings, hb', hp', hval⟩ := flip_spec h.of hb hp hlt hleaves hrange
    refine ⟨hof, hsettings.trans h.settings, fun t₁ ht₁ => ?_, nofun⟩
    obtain rfl := Option.some.inj (hb'.tableau.symm.trans ht₁)
    refine ⟨hb', hp', fun hzero => ?_⟩
    have hsolves := (h.basis t hb.tableau).2.2 hzero
    have hmoved := hsolves.add_mul (hb.derived.solves_ray hb.complete hj hlt) (δ * σ)
    intro i hi
    rw [← hmoved i hi]
    exact Finset.sum_congr rfl fun k hk => by rw [hval k (Finset.mem_range.mp hk)]
  | row r step bound atUpper =>
    rw [hratio] at hstops
    obtain ⟨hr, hpivot, ⟨σ, rfl⟩, β, rfl, hbound⟩ := hstops
    obtain ⟨hof, hsettings, hb', hp'⟩ := exchange_spec h.of hb hp hlt hj hr hpivot
      (δ := δ) (σ := σ) hbound
    refine ⟨hof, hsettings.trans h.settings, fun t₁ ht₁ => ?_, nofun⟩
    obtain rfl := Option.some.inj (hb'.tableau.symm.trans ht₁)
    exact ⟨hb', hp', fun hzero => (Nat.succ_ne_zero _ hzero).elim⟩

/-- Pricing moves on, or concludes at values that solve the constraint rows. -/
theorem price_after (h : s.Sound p c pace) (hb : s.Based p t) (hp : s.Placed p t) :
    After p c (s.price t pace) := by
  have hprimal : s.settings.tolPrimal = .fin primal := h.settings ▸ htol.tolPrimal
  have hdual : s.settings.tolDual = .fin dual := h.settings ▸ htol.tolDual
  have hslopes : ∀ phase1, (s.violationSlopes t).any (· != 0) = phase1 →
      (phase1 = true ↔ ∃ i < t.rows.size, s.slope t i ≠ 0) := by
    rintro phase1 rfl
    have hsize : (s.violationSlopes t).size = t.rows.size := by simp [violationSlopes]
    rw [Array.any_eq_true]
    constructor
    · rintro ⟨i, hi, hne⟩
      have hi' : i < t.rows.size := hsize ▸ hi
      have hget : (s.violationSlopes t)[i] = .fin (s.slope t i) := by
        have hslope := (slope_eq h.of hb hp hprimal hi').1
        simpa [hi] using hslope
      rw [hget, Exact.zero_def, Exact.fin_bne, decide_eq_true_eq] at hne
      exact ⟨i, hi', hne⟩
    · rintro ⟨i, hi, hne⟩
      have hi' : i < (s.violationSlopes t).size := hsize.symm ▸ hi
      refine ⟨i, hi', ?_⟩
      have hget : (s.violationSlopes t)[i] = .fin (s.slope t i) := by
        have hslope := (slope_eq h.of hb hp hprimal hi).1
        simpa [hi'] using hslope
      rw [hget, Exact.zero_def, Exact.fin_bne, decide_eq_true_eq]
      exact hne
  unfold price pricing
  dsimp only
  generalize hphase : (s.violationSlopes t).any (· != 0) = phase1
  generalize hd : (if phase1 then _ else _) = d
  have hiff := hslopes phase1 hphase
  obtain ⟨hsize, hprices⟩ := priced_spec hv h.of hb hp hprimal phase1 hd.symm
  have hnumbers : ∀ k < d.size, d.getD k 0 = .fin (prices p s t phase1 k) :=
    fun k hk => hprices k (hsize ▸ hk)
  generalize decide (s.settings.blandAfter ≤ pace.degenerateRun) = bland
  cases hchoice : (if bland then s.firstImproving? d else s.steepestImproving? d) with
  | some choice =>
    obtain ⟨j, dir⟩ := choice
    have himproving : j < d.size ∧ s.improvingDirection? j (d.getD j 0) = some dir := by
      cases bland with
      | true => exact firstImproving?_some hchoice
      | false => exact steepestImproving?_some hchoice
    obtain ⟨hj, hdir⟩ := himproving
    rw [hprices j (hsize ▸ hj)] at hdir
    obtain ⟨δ, rfl, hleaves, hless⟩ := improvingDirection?_some hdual hdir
    have hneg : δ * prices p s t phase1 j < 0 := by linarith [htol.dual_nonneg]
    exact advance_after hv hwf htol h hb hp (hsize ▸ hj) hleaves hneg bland
  | none =>
    have hnone : ∀ j < p.width, s.improvingDirection? j (.fin (prices p s t phase1 j)) = none := by
      intro j hj
      rw [← hprices j hj]
      cases bland with
      | true => exact firstImproving?_none hchoice (hsize.symm ▸ hj)
      | false =>
        exact steepestImproving?_none hnumbers hdual htol.dual_nonneg hchoice (hsize.symm ▸ hj)
    dsimp only
    split
    · split
      · next s' pace' hrefresh =>
        obtain ⟨hzero, hsound⟩ := refresh?_sound hv hwf htol h.of h.settings hb hrefresh
        exact hsound _ hzero
      · exact ⟨h.of, h.settings, by simp⟩
    · next hfresh =>
      have hzero : pace.sinceRefactor = 0 := by
        by_contra hne
        refine hfresh ?_
        cases hverified : pace.verified with
        | false => simp [Nat.pos_of_ne_zero hne]
        | true => exact (hne (h.verified hverified)).elim
      have hsolves := (h.basis t hb.tableau).2.2 hzero
      refine ⟨h.of, h.settings, fun _ => ⟨t, hb, hp, ?_⟩⟩
      cases phase1 with
      | true => exact ⟨hsolves, hiff.mp rfl, hnone⟩
      | false =>
        refine ⟨hsolves, fun i hi => by_contra fun hne => ?_, hnone⟩
        exact Bool.false_ne_true (hiff.mpr ⟨i, hi, hne⟩)

theorem step_after (h : s.Sound p c pace) : After p c (s.step pace) := by
  unfold step
  split
  · exact ⟨h.of, h.settings, by simp⟩
  split
  · exact ⟨h.of, h.settings, by simp⟩
  have hsound : ∀ s' pace', s.prepared? pace = some (s', pace') → s'.Sound p c pace' := by
    intro s' pace' hnext
    rcases prepared?_some hnext with hrefresh | ⟨rfl, rfl⟩
    · obtain ⟨s₁, hrefactor, -⟩ := Option.map_eq_some_iff.mp hrefresh
      cases ht : s.tableau with
      | none =>
        unfold refactor? at hrefactor
        rw [ht] at hrefactor
        cases hrefactor
      | some t =>
        obtain ⟨hzero, hfresh⟩ := refresh?_sound hv hwf htol h.of h.settings
          (h.basis t ht).1 hrefresh
        exact hfresh _ hzero
    · exact h
  cases hnext : s.prepared? pace with
  | none => exact ⟨h.of, h.settings, by simp⟩
  | some next =>
    obtain ⟨s', pace'⟩ := next
    have h' := hsound s' pace' hnext
    dsimp only
    cases ht : s'.tableau with
    | none => exact ⟨h'.of, h'.settings, by simp⟩
    | some t =>
      obtain ⟨hb, hp, -⟩ := h'.basis t ht
      exact price_after hv hwf htol h' hb hp

/-- **A run of steps ends with a verdict that its last state bears out.** -/
theorem iterate_after (h : s.Sound p c pace) (fuel : Nat) :
    After p c ((s.iterate pace fuel).1, (s.iterate pace fuel).2.1, some (s.iterate pace fuel).2.2) := by
  induction fuel generalizing s pace with
  | zero => exact ⟨h.of, h.settings, by simp [iterate]⟩
  | succ fuel ih =>
    have hstep := step_after hv hwf htol h
    unfold iterate
    rcases hout : s.step pace with ⟨s', pace', _ | status⟩
    · rw [hout] at hstep
      exact ih hstep
    · rw [hout] at hstep
      exact hstep

end Steps

end BranchAndCut.Lp.Simplex

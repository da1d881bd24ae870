import BranchAndCut.Proofs.Lp.Moves

/-! # Choosing the move

An entering column improves by more than the tolerance; where none does, no
feasible value of a column is much better than its present one. The ratio test
stops at a bound that there is, or finds nothing that could stop the column. -/

namespace BranchAndCut.Lp.Simplex

variable [Rooted ℚ] {p : Problem (Exact ℚ)} {s : Simplex (Exact ℚ)} {t : Tableau (Exact ℚ)}
  {j : Nat}

/-! ## Reduced costs -/

theorem pricedColumns_spec (hb : s.Based p t) {costs basicCosts : Array (Exact ℚ)} {c b : Nat → ℚ}
    (hsize : costs.size = p.width) (hcosts : ∀ k < p.width, costs.getD k 0 = .fin (c k))
    (hbasic : ∀ i < t.rows.size, basicCosts.getD i 0 = .fin (b i)) :
    (pricedColumns t costs basicCosts).size = p.width ∧
      ∀ k < p.width, (pricedColumns t costs basicCosts).getD k 0 = .fin (t.reduced c b k) := by
  refine fold_induction (fun n (d : Array (Exact ℚ)) => d.size = p.width ∧ ∀ k < p.width,
    d.getD k 0 = .fin (c k - ∑ i ∈ Finset.range n, b i * t.entry i k)) ?_ ?_
  · exact ⟨hsize, fun k hk => by rw [hcosts k hk, Finset.range_zero, Finset.sum_empty, sub_zero]⟩
  · rintro i hi d ⟨hd, hvalues⟩
    have hwidth := hb.derived.numeric.width i hi
    dsimp only
    rw [hbasic i hi, Exact.zero_def, Exact.fin_beq]
    by_cases hzero : b i = 0
    · rw [if_pos (by simpa using hzero)]
      refine ⟨hd, fun k hk => ?_⟩
      rw [← Exact.zero_def, hvalues k hk, Finset.sum_range_succ, hzero, zero_mul, add_zero]
    · rw [if_neg (by simpa using hzero)]
      refine ⟨by rw [Array.size_zipWith, hd, hwidth, min_self], fun k hk => ?_⟩
      rw [← Exact.zero_def, getD_zipWith _ _ _ _ 0 0 _ (hd.trans hwidth.symm), if_pos (hd.symm ▸ hk),
        hvalues k hk, hb.derived.numeric.row_getD, Exact.fin_mul, Exact.fin_sub,
        Finset.sum_range_succ, sub_sub]

/-- An improving direction leads away from where the column rests. -/
theorem improvingDirection?_leaves {d dir : Exact ℚ} (h : s.improvingDirection? j d = some dir) :
    ∃ δ, dir = .fin δ ∧ Leaves (s.statusOf j) δ ∧
      (δ = 1 ∧ d < -s.settings.tolDual ∨ δ = -1 ∧ s.settings.tolDual < d) := by
  unfold improvingDirection? at h
  rw [Exact.one_def] at h
  dsimp only at h
  rw [Exact.fin_neg] at h
  split at h
  · cases h
  unfold Leaves
  cases hst : s.statusOf j with
  | basic =>
    rw [hst] at h
    cases h
  | atLower =>
    rw [hst] at h
    dsimp only at h
    split_ifs at h with hlt
    exact ⟨1, (Option.some.inj h).symm, rfl, .inl ⟨rfl, hlt⟩⟩
  | atUpper =>
    rw [hst] at h
    dsimp only at h
    split_ifs at h with hlt
    exact ⟨-1, (Option.some.inj h).symm, rfl, .inr ⟨rfl, hlt⟩⟩
  | atZero =>
    rw [hst] at h
    dsimp only at h
    split_ifs at h with hlt hlt'
    · exact ⟨1, (Option.some.inj h).symm, .inl rfl, .inl ⟨rfl, hlt⟩⟩
    · exact ⟨-1, (Option.some.inj h).symm, .inr rfl, .inr ⟨rfl, hlt'⟩⟩

/-- An improving direction improves by more than the tolerance. -/
theorem improvingDirection?_some {τ q : ℚ} (htol : s.settings.tolDual = .fin τ) {dir : Exact ℚ}
    (h : s.improvingDirection? j (.fin q) = some dir) :
    ∃ δ, dir = .fin δ ∧ Leaves (s.statusOf j) δ ∧ δ * q < -τ := by
  obtain ⟨δ, hdir, hleaves, himproves⟩ := improvingDirection?_leaves h
  rw [htol, Exact.fin_neg, Exact.fin_lt, Exact.fin_lt] at himproves
  refine ⟨δ, hdir, hleaves, ?_⟩
  rcases himproves with ⟨rfl, hlt⟩ | ⟨rfl, hlt⟩
  · linarith
  · linarith

/-- **Without an improving direction no admissible value is much better.** -/
theorem settled_of_none (hs : s.Of p) (hb : s.Based p t) (hp : s.Placed p t) (hlt : j < p.width)
    (hj : ¬ t.InBasis j) {τ q y : ℚ} (htol : s.settings.tolDual = .fin τ)
    (hnone : s.improvingDirection? j (.fin q) = none)
    (hl : p.lowerOf j ≤ .fin y) (hu : .fin y ≤ p.upperOf j) :
    -(τ * |y - s.val j|) ≤ q * (y - s.val j) := by
  have hrests := hb.rests j hlt hj
  have hvalue := hp.nonbasic j hlt hj
  unfold Rests at hrests
  unfold nonbasicValue at hvalue
  unfold improvingDirection? at hnone
  rw [hs.lowerOf, hs.upperOf] at hvalue
  rw [htol, hs.lowerOf, hs.upperOf] at hnone
  dsimp only at hnone
  rw [Exact.fin_neg] at hnone
  simp only [Exact.fin_lt, Exact.one_def] at hnone
  cases hst : s.statusOf j with
  | basic =>
    rw [hst] at hrests
    exact hrests.elim
  | atLower =>
    rw [hst] at hrests hvalue hnone
    obtain ⟨l, hlower⟩ := Exact.isFinite_iff.mp hrests
    rw [hlower] at hl hnone
    rw [Exact.fin_le] at hl
    have hval : s.val j = l := val_of_valueOf (hvalue.trans hlower)
    rw [hval, abs_of_nonneg (sub_nonneg.mpr hl)]
    by_cases hfixed : p.upperOf j = .fin l
    · rw [hfixed, Exact.fin_le] at hu
      rw [le_antisymm hu hl, sub_self, mul_zero, mul_zero, neg_zero]
    · by_contra hlt'
      have hq : q < -τ := by nlinarith
      have hne : ¬ (Exact.fin l == p.upperOf j) = true := by
        cases hup : p.upperOf j with
        | fin u =>
          rw [Exact.fin_beq, decide_eq_true_eq]
          exact fun he => hfixed (by rw [hup, he])
        | _ => exact Bool.false_ne_true
      simp [hne, hq] at hnone
  | atUpper =>
    rw [hst] at hrests hvalue hnone
    obtain ⟨u, hupper⟩ := Exact.isFinite_iff.mp hrests
    rw [hupper] at hu hnone
    rw [Exact.fin_le] at hu
    have hval : s.val j = u := val_of_valueOf (hvalue.trans hupper)
    rw [hval, abs_of_nonpos (sub_nonpos.mpr hu)]
    by_cases hfixed : p.lowerOf j = .fin u
    · rw [hfixed, Exact.fin_le] at hl
      rw [le_antisymm hu hl, sub_self, neg_zero, mul_zero, mul_zero, neg_zero]
    · by_contra hlt'
      have hq : τ < q := by nlinarith
      have hne : ¬ (p.lowerOf j == Exact.fin u) = true := by
        cases hlo : p.lowerOf j with
        | fin l =>
          rw [Exact.fin_beq, decide_eq_true_eq]
          exact fun he => hfixed (by rw [hlo, he])
        | _ => exact Bool.false_ne_true
      simp [hne, hq] at hnone
  | atZero =>
    rw [hst] at hrests hnone
    rw [hrests.1, hrests.2] at hnone
    have hne : ¬ (Exact.negInf == (Exact.posInf : Exact ℚ)) = true := Bool.false_ne_true
    have hle : |q| ≤ τ := by
      by_contra hgt
      rcases lt_abs.mp (not_le.mp hgt) with hq | hq
      · by_cases hq' : q < -τ
        · simp [hne, hq'] at hnone
        · simp [hne, hq, hq'] at hnone
      · have hq' : q < -τ := by linarith
        simp [hne, hq'] at hnone
    have habs : |q * (y - s.val j)| ≤ τ * |y - s.val j| := by
      rw [abs_mul]
      exact mul_le_mul_of_nonneg_right hle (abs_nonneg _)
    linarith [neg_abs_le (q * (y - s.val j))]

/-! ## The entering column -/

theorem firstImproving?_none {d : Array (Exact ℚ)} (h : s.firstImproving? d = none)
    (hj : j < d.size) : s.improvingDirection? j (d.getD j 0) = none :=
  Option.map_eq_none_iff.mp (List.findSome?_eq_none_iff.mp h j (List.mem_range.mpr hj))

/-- The search for the largest reduced cost finds a column if any improves. -/
theorem steepestImproving?_none {d : Array (Exact ℚ)} {f : Nat → ℚ}
    (hd : ∀ k < d.size, d.getD k 0 = .fin (f k)) {τ : ℚ} (htol : s.settings.tolDual = .fin τ)
    (hτ : 0 ≤ τ) (h : s.steepestImproving? d = none) (hj : j < d.size) :
    s.improvingDirection? j (d.getD j 0) = none := by
  let good : Nat → Option (Nat × Exact ℚ) × Exact ℚ → Prop := fun n best =>
    best.1 = none → best.2 = 0 ∧ ∀ j < n, s.improvingDirection? j (d.getD j 0) = none
  have hdone : ∀ best, good d.size best → best.1 = none →
      s.improvingDirection? j (d.getD j 0) = none := fun best hbest hnone => (hbest hnone).2 j hj
  unfold steepestImproving? at h
  refine hdone _ (fold_induction good (fun _ => ⟨rfl, nofun⟩) ?_) h
  rintro k hk ⟨best, size⟩ hnone
  dsimp only
  cases hdir : s.improvingDirection? k (d.getD k 0) with
  | none =>
    dsimp only
    refine fun hbest => ⟨(hnone hbest).1, fun j hj => ?_⟩
    rcases Nat.lt_succ_iff_lt_or_eq.mp hj with hlt | rfl
    · exact (hnone hbest).2 j hlt
    · exact hdir
  | some dir =>
    dsimp only
    by_cases hlarger : size < Scalar.abs (d.getD k 0)
    · rw [if_pos hlarger]
      exact nofun
    · rw [if_neg hlarger]
      refine fun hbest => (hlarger ?_).elim
      rw [hd k hk] at hdir
      obtain ⟨δ, -, hleaves, himproves⟩ := improvingDirection?_some htol hdir
      have hne : f k ≠ 0 := by
        intro hzero
        rw [hzero, mul_zero] at himproves
        linarith
      have hsize : size = 0 := (hnone hbest).1
      rw [hsize, hd k hk, Exact.abs_fin, Exact.zero_def, Exact.fin_lt]
      exact abs_pos.mpr hne

/-! ## The ratio test -/

/-- The bound at which a basic column stops is one that it has. -/
theorem blockingStep?_some (hv : p.Valid) (hs : s.Of p) (hlt : j < p.width) {v a : ℚ}
    (hvalue : s.valueOf j = .fin v) (ha : a ≠ 0)
    {phase1 : Bool} {step bound : Exact ℚ} {atUpper : Bool}
    (h : s.blockingStep? phase1 j (.fin a) = some (step, bound, atUpper)) :
    (∃ σ, step = .fin σ) ∧
      ∃ β, bound = .fin β ∧ (if atUpper then s.upperOf j else s.lowerOf j) = .fin β := by
  have hlower := hv.lower_cases hlt
  have hupper := hv.upper_cases hlt
  rw [← hs.lowerOf] at hlower
  rw [← hs.upperOf] at hupper
  -- whatever the slack, only a bound that there is can be missed
  have habove : ∀ {x : Exact ℚ}, s.upperOf j + x < .fin v → ∃ u, s.upperOf j = .fin u := by
    intro x hx
    refine hupper.resolve_left fun hinf => ?_
    rw [hinf] at hx
    cases x <;> exact hx
  have hbelow : ∀ {x : Exact ℚ}, .fin v < s.lowerOf j - x → ∃ l, s.lowerOf j = .fin l := by
    intro x hx
    refine hlower.resolve_left fun hinf => ?_
    rw [hinf] at hx
    cases x <;> exact hx
  unfold blockingStep? at h
  dsimp only at h
  rw [hvalue, Exact.zero_def, Exact.fin_neg] at h
  generalize s.settings.tolPrimal * (1 + Scalar.abs (Exact.fin v)) = slack at h
  split_ifs at h with hpos hover hunder hfinite hunder hover hfinite
  · obtain ⟨u, hu⟩ := habove (of_decide_eq_true (Bool.and_eq_true_iff.mp hover).2)
    obtain ⟨rfl, rfl, rfl⟩ : _ ∧ _ ∧ _ := by simpa [hu, Exact.fin_div ha] using h
    exact ⟨⟨_, rfl⟩, u, rfl, hu⟩
  · obtain ⟨l, hl⟩ := Exact.isFinite_iff.mp hfinite
    obtain ⟨rfl, rfl, rfl⟩ : _ ∧ _ ∧ _ := by simpa [hl, Exact.fin_div ha, Exact.max_fin] using h
    exact ⟨⟨_, rfl⟩, l, rfl, hl⟩
  · obtain ⟨l, hl⟩ := hbelow (of_decide_eq_true (Bool.and_eq_true_iff.mp hunder).2)
    obtain ⟨rfl, rfl, rfl⟩ : _ ∧ _ ∧ _ := by simpa [hl, Exact.fin_div (neg_ne_zero.mpr ha)] using h
    exact ⟨⟨_, rfl⟩, l, rfl, hl⟩
  · obtain ⟨u, hu⟩ := Exact.isFinite_iff.mp hfinite
    obtain ⟨rfl, rfl, rfl⟩ : _ ∧ _ ∧ _ := by
      simpa [hu, Exact.fin_div (neg_ne_zero.mpr ha), Exact.max_fin] using h
    exact ⟨⟨_, rfl⟩, u, rfl, hu⟩

/-- In phase 2 only a missing bound lets a basic column pass. -/
theorem blockingStep?_none {a : ℚ} (h : s.blockingStep? false j (.fin a) = none) :
    (0 < a → Scalar.isFinite (s.lowerOf j) = false) ∧
      (¬ 0 < a → Scalar.isFinite (s.upperOf j) = false) := by
  unfold blockingStep? at h
  dsimp only at h
  rw [Exact.zero_def] at h
  simp only [Bool.false_and, Bool.false_eq_true, if_false, Exact.fin_lt] at h
  constructor
  · intro ha
    rw [if_pos ha] at h
    split_ifs at h with hfinite
    simpa using hfinite
  · intro ha
    rw [if_neg ha] at h
    split_ifs at h with hfinite
    simpa using hfinite

/-- What stops a column is a finite step to a bound that there is; nothing stops it
if it has no opposite bound and all basic columns that it moves let it pass. -/
def Stops (s : Simplex (Exact ℚ)) (t : Tableau (Exact ℚ)) (j : Nat) (δ : ℚ) (phase1 : Bool) :
    Blocking (Exact ℚ) → Prop
  | .ownBound step => ∃ σ, step = .fin σ ∧ s.upperOf j - s.lowerOf j = .fin σ
  | .row r step bound atUpper =>
    r < t.rows.size ∧ t.entry r j ≠ 0 ∧ (∃ σ, step = .fin σ) ∧ ∃ β, bound = .fin β ∧
      (if atUpper then s.upperOf (t.basicColumn r) else s.lowerOf (t.basicColumn r)) = .fin β
  | .nothing =>
    Scalar.isFinite (s.upperOf j - s.lowerOf j) = false ∧ ∀ i < t.rows.size,
      Scalar.abs (.fin (t.entry i j * δ)) ≤ s.settings.tolPivot ∨
        s.blockingStep? phase1 (t.basicColumn i) (.fin (t.entry i j * δ)) = none

theorem ratioTest_stops (hv : p.Valid) (hs : s.Of p) (hb : s.Based p t) (hp : s.Placed p t)
    (hpivot : 0 ≤ s.settings.tolPivot) (δ : ℚ) (phase1 bland : Bool) :
    s.Stops t j δ phase1 (s.ratioTest t j (.fin δ) phase1 bland) := by
  let good : Nat → Option (Blocker (Exact ℚ)) × Exact ℚ → Prop := fun n acc =>
    match acc.1 with
    | none => acc.2 = .posInf ∧ ∀ i < n,
        Scalar.abs (.fin (t.entry i j * δ)) ≤ s.settings.tolPivot ∨
          s.blockingStep? phase1 (t.basicColumn i) (.fin (t.entry i j * δ)) = none
    | some b => s.Stops t j δ phase1 (.row b.row acc.2 b.bound b.atUpper)
  have hblocker : good t.rows.size (s.firstBlocker t j (.fin δ) phase1 bland) := by
    refine fold_induction good ⟨rfl, nofun⟩ ?_
    rintro i hi ⟨best, bestStep⟩ hgood
    unfold blockRow
    dsimp only
    rw [hb.derived.numeric.finite, Exact.fin_mul]
    -- a row that does not block leaves the candidate alone
    have hpass : (Scalar.abs (.fin (t.entry i j * δ)) ≤ s.settings.tolPivot ∨
        s.blockingStep? phase1 (t.basicColumn i) (.fin (t.entry i j * δ)) = none) →
        good (i + 1) (best, bestStep) := by
      intro hi'
      cases best with
      | none =>
        refine ⟨hgood.1, fun k hk => ?_⟩
        rcases Nat.lt_succ_iff_lt_or_eq.mp hk with hlt | rfl
        · exact hgood.2 k hlt
        · exact hi'
      | some b => exact hgood
    split
    · next hsmall => exact hpass (.inl hsmall)
    · next hlarge =>
      cases hstep : s.blockingStep? phase1 (t.basicColumn i) (.fin (t.entry i j * δ)) with
      | none => exact hpass (.inr hstep)
      | some found =>
        obtain ⟨step, bound, atUpper⟩ := found
        have hne : t.entry i j * δ ≠ 0 := by
          intro hzero
          rw [hzero, Exact.abs_fin, abs_zero, ← Exact.zero_def] at hlarge
          exact hlarge hpivot
        have hlt := hb.derived.basic_lt hb.complete hi
        obtain ⟨⟨σ, rfl⟩, hbound⟩ :=
          blockingStep?_some hv hs hlt (hp.finite _ hlt) hne hstep
        have hstops : ∀ bestStep', (∃ σ', bestStep' = Exact.fin σ') →
            s.Stops t j δ phase1 (.row i bestStep' bound atUpper) :=
          fun bestStep' hfinite => ⟨hi, left_ne_zero_of_mul hne, hfinite, hbound⟩
        dsimp only
        cases best with
        | none =>
          have hmin : Scalar.min (Exact.fin σ) bestStep = .fin σ := by
            obtain ⟨hinf, -⟩ := hgood
            dsimp only at hinf
            rw [hinf]
            rfl
          rw [if_pos rfl, hmin]
          exact hstops _ ⟨σ, rfl⟩
        | some b =>
          obtain ⟨σ', hσ'⟩ := hgood.2.2.1
          dsimp only at hσ'
          have hboth : ∀ better : Bool, good (i + 1) (if better then
              (some ⟨i, bound, atUpper, .fin (t.entry i j * δ)⟩, Scalar.min (.fin σ) bestStep)
              else (some b, bestStep)) := by
            intro better
            cases better with
            | true => exact hstops _ (by rw [hσ', Exact.min_fin]; exact ⟨_, rfl⟩)
            | false => exact hgood
          exact hboth _
  unfold ratioTest
  dsimp only
  generalize s.firstBlocker t j (.fin δ) phase1 bland = acc at hblocker ⊢
  obtain ⟨best, bestStep⟩ := acc
  cases hrange : s.upperOf j - s.lowerOf j with
  | fin σ =>
    cases best with
    | none =>
      obtain ⟨rfl, -⟩ := hblocker
      have hle : Exact.fin σ ≤ .posInf := trivial
      rw [if_pos (by simp [hle])]
      exact ⟨σ, rfl, hrange⟩
    | some b =>
      split
      · exact ⟨σ, rfl, hrange⟩
      · exact hblocker
  | _ =>
    rw [if_neg (by simp)]
    cases best with
    | none => exact ⟨by rw [hrange]; rfl, hblocker.2⟩
    | some b => exact hblocker

end BranchAndCut.Lp.Simplex

import BranchAndCut.Proofs.Lp.Basis

/-! # Contradictory bounds

No point satisfies a program with a column whose lower bound is above its upper bound. The
method measures violations in basic columns only, and takes any other column to be where it
may be once it is at one of its bounds. So a contradiction is noticed as long as its column
is basic, and forgotten when the column leaves the basis at one of the two bounds. -/

namespace BranchAndCut.Lp

section Verdict

variable {K : Type} [Scalar K] {s s' : Simplex K} {t : Tableau K} {pace pace' : Pace}

namespace Simplex

theorem advance_ne_optimal (s : Simplex K) (t : Tableau K) (pace : Pace) (j : Nat) (dir : K)
    (phase1 bland : Bool) : (s.advance t pace j dir phase1 bland).2.2 ≠ some .optimal := by
  unfold advance
  dsimp only
  cases s.ratioTest t j dir phase1 bland with
  | nothing =>
    dsimp only
    split
    · split
      · nofun
      · nofun
    · nofun
  | ownBound step => nofun
  | row r step bound atUpper => nofun

theorem price_optimal (h : s.price t pace = (s', pace', some .optimal)) :
    s' = s ∧ (s.violationSlopes t).any (· != 0) = false := by
  unfold price pricing at h
  dsimp only at h
  split at h
  · have hverdict := congrArg (·.2.2) h
    exact (advance_ne_optimal _ _ _ _ _ _ _ hverdict).elim
  · split at h
    · split at h
      · cases h
      · cases h
    · obtain ⟨rfl, -, hverdict⟩ : s = s' ∧ _ ∧ _ := by simpa only [Prod.mk.injEq] using h
      refine ⟨rfl, ?_⟩
      split at hverdict
      · cases hverdict
      · next hinside => exact Bool.not_eq_true _ ▸ hinside

/-- **A state is called optimal only if no basic column violates its bounds.** -/
theorem step_optimal (h : s.step pace = (s', pace', some .optimal)) :
    ∃ t, s'.tableau = some t ∧ (s'.violationSlopes t).any (· != 0) = false := by
  unfold step at h
  split at h
  · cases h
  split at h
  · cases h
  split at h
  · cases h
  · next s₁ pace₁ _ =>
    cases ht : s₁.tableau with
    | none =>
      rw [ht] at h
      cases h
    | some t =>
      rw [ht] at h
      obtain ⟨rfl, hinside⟩ := price_optimal h
      exact ⟨t, ht, hinside⟩

end Simplex

end Verdict

/-- No value is within the tolerance of both bounds. -/
theorem violated_of_crossed {primal l u : ℚ} (hlt : u < l)
    (hcrossed : 2 * primal * (1 + |l| + |u|) < l - u) (v : ℚ) :
    v < l - primal * (1 + |v|) ∨ u + primal * (1 + |v|) < v := by
  by_contra hinside
  rw [not_or, not_lt, not_lt] at hinside
  obtain ⟨hl, hu⟩ := hinside
  have habs := abs_nonneg v
  rcases le_or_gt primal 0 with hneg | hpos
  · have hslack := mul_nonpos_of_nonpos_of_nonneg hneg (by linarith : 0 ≤ 1 + |v|)
    linarith
  -- a value beyond the sum of the bounds is nearer to them than the tolerance allows
  have hsize : 0 ≤ primal * (|l| + |u|) := by positivity
  have hhalf : primal < 1 / 2 := by
    by_contra hge
    have hwide := mul_le_mul_of_nonneg_right (not_lt.mp hge) (by positivity : 0 ≤ 1 + |l| + |u|)
    linarith [le_abs_self l, neg_abs_le u]
  rcases le_or_gt |v| (|l| + |u|) with hnear | hfar
  · have hslack := mul_le_mul_of_nonneg_left hnear hpos.le
    linarith
  · have hscaled := mul_lt_mul_of_pos_left hfar (by linarith : 0 < 1 - primal)
    rcases abs_cases v with ⟨heq, -⟩ | ⟨heq, -⟩
    · rw [heq] at hscaled hu
      linarith [le_abs_self l, abs_nonneg u]
    · rw [heq] at hscaled hl
      linarith [neg_abs_le u, abs_nonneg l]

section Crossing

variable [Rooted ℚ] {p : Problem (Exact ℚ)} {c : Settings (Exact ℚ)} {s : Simplex (Exact ℚ)}
  {t : Tableau (Exact ℚ)} {primal : ℚ} {j : Nat}

/-- The bounds of a column contradict each other by more than the tolerance on either side. -/
def Problem.Crossed (p : Problem (Exact ℚ)) (primal : ℚ) (j : Nat) : Prop :=
  ∃ l u, p.lowerOf j = .fin l ∧ p.upperOf j = .fin u ∧ u < l ∧
    2 * primal * (1 + |l| + |u|) < l - u

namespace Simplex

/-- A basic column with contradictory bounds violates one of them. -/
theorem slope_of_crossed (hs : s.Of p) (hprimal : s.settings.tolPrimal = .fin primal) {v : ℚ}
    (hvalue : s.valueOf j = .fin v) (hcrossed : p.Crossed primal j) :
    (s.violationSlope j != 0) = true := by
  obtain ⟨l, u, hl, hu, hlt, hgap⟩ := hcrossed
  unfold violationSlope
  rw [hs.lowerOf, hs.upperOf, hl, hu, hprimal, hvalue]
  dsimp only
  rw [Exact.abs_fin, Exact.one_def, Exact.fin_add, Exact.fin_mul, Exact.fin_sub, Exact.fin_add]
  simp only [Exact.fin_lt, Exact.zero_def]
  by_cases hbelow : v < l - primal * (1 + |v|)
  · rw [if_pos hbelow]
    rfl
  · rw [if_neg hbelow, if_pos ((violated_of_crossed hlt hgap v).resolve_left hbelow)]
    rfl

theorem ne_basic_of_crossed (hs : s.Of p) (hb : s.Based p t) (hp : s.Placed p t)
    (hprimal : s.settings.tolPrimal = .fin primal)
    (hinside : (s.violationSlopes t).any (· != 0) = false) (hlt : j < p.width)
    (hcrossed : p.Crossed primal j) : s.statusOf j ≠ .basic := by
  intro hbasic
  obtain ⟨i, hi, rfl⟩ := (hb.inBasis_iff hlt).mpr hbasic
  have hslope := slope_of_crossed hs hprimal (hp.finite _ hlt) hcrossed
  rw [Array.any_eq_false] at hinside
  refine hinside i (by simpa [violationSlopes] using hi) ?_
  simpa [violationSlopes] using hslope

/-- **A contradiction in the bounds is called optimal only where it is out of the basis.**
Each column with contradictory bounds then is at one of them, and there are no more of these
than columns of the program. -/
theorem solve_crossed (hwf : p.a.WellFormed) (hprimal : c.tolPrimal = .fin primal)
    (hpivot : 0 ≤ c.tolPivot) (hs : Reachable p c s) (warmStart : Option Basis) :
    let out := s.solve warmStart
    (out.1.status = .optimal → ∀ j < p.width, p.Crossed primal j →
        out.2.statusOf j ≠ .basic ∧
          (out.2.valueOf j = p.lowerOf j ∨ out.2.valueOf j = p.upperOf j)) ∧
      ∀ cols : Finset Nat, (∀ j ∈ cols, j < p.width ∧ p.Crossed primal j) →
        p.numCols < cols.card → out.1.status ≠ .optimal := by
  obtain ⟨hv, hof, hset⟩ := hs.of hwf
  intro out
  obtain ⟨hs', hset', t, hb, hp⟩ := solve_seated hv hwf hof hset hpivot warmStart
  have hout : out.1.status = .optimal → ∀ j < p.width, p.Crossed primal j →
      out.2.statusOf j ≠ .basic := by
    intro hoptimal j hlt hcrossed
    obtain ⟨s₁, pace₁, pace₂, hstep⟩ := solve_ends s warmStart
    rw [show (s.solve warmStart).1.status = .optimal from hoptimal] at hstep
    obtain ⟨t', ht', hinside⟩ := step_optimal hstep
    obtain rfl := Option.some.inj (hb.tableau.symm.trans ht')
    exact ne_basic_of_crossed hs' hb hp (hset'.symm ▸ hprimal) hinside hlt hcrossed
  refine ⟨fun hoptimal j hlt hcrossed => ?_, fun cols hcols hmany hoptimal => ?_⟩
  · have hne := hout hoptimal j hlt hcrossed
    refine ⟨hne, ?_⟩
    obtain ⟨l, u, hl, -⟩ := hcrossed
    have hsits := sits_of_placed hs' hb hp hlt
    unfold Sits at hsits
    cases hst : out.2.statusOf j with
    | basic => exact (hne hst).elim
    | atLower =>
      rw [hst] at hsits
      obtain ⟨q, hq, hvalue⟩ := hsits
      exact .inl (hvalue.trans hq.symm)
    | atUpper =>
      rw [hst] at hsits
      obtain ⟨q, hq, hvalue⟩ := hsits
      exact .inr (hvalue.trans hq.symm)
    | atZero =>
      rw [hst, hl] at hsits
      cases hsits.1
  · obtain ⟨hnodup, hlength, hmem⟩ := hb.heading
    have hdisjoint : Disjoint cols t.basis.toFinset := by
      refine Finset.disjoint_left.mpr fun j hj hin => ?_
      obtain ⟨hlt, hcrossed⟩ := hcols j hj
      exact hout hoptimal j hlt hcrossed ((hmem j).mp (List.mem_toFinset.mp hin)).2
    have hrange : cols ∪ t.basis.toFinset ⊆ Finset.range p.width := by
      refine Finset.union_subset (fun j hj => ?_) fun j hj => ?_
      · exact Finset.mem_range.mpr (hcols j hj).1
      · exact Finset.mem_range.mpr ((hmem j).mp (List.mem_toFinset.mp hj)).1
    have hcard := Finset.card_le_card hrange
    rw [Finset.card_union_of_disjoint hdisjoint, List.toFinset_card_of_nodup hnodup, hlength,
      Finset.card_range, hb.rows_size hs' hv hwf] at hcard
    unfold Problem.width at hcard
    omega

end Simplex

end Crossing

namespace Simplex

/-- The row `2 ≤ x ≤ 1`, twice: more contradictions than columns. -/
theorem solve_crossed_twice :
    let p : Problem (Exact ℚ) :=
      { cost := #[.fin 1]
        a := ⟨2, 1, .byColumn, #[[(0, .fin 1), (1, .fin 1)]]⟩
        rowLower := #[.fin 2, .fin 2], rowUpper := #[.fin 1, .fin 1]
        colLower := #[.fin 0], colUpper := #[.fin 10] }
    ∃ s : Simplex (Exact ℚ), Simplex.new p .default = .ok s ∧
      (s.solve none).1.status ≠ .optimal := by
  intro p
  have hvalidate : p.validate = .ok () := by decide +kernel
  have hwf : p.a.WellFormed := ⟨rfl, by decide⟩
  have hprimal : (Settings.default : Settings (Exact ℚ)).tolPrimal = .fin (1 / 10 ^ 9) := by
    decide +kernel
  have hpivot : 0 ≤ (Settings.default : Settings (Exact ℚ)).tolPivot := by decide +kernel
  have hcrossed : ∀ j ∈ ({1, 2} : Finset Nat), j < p.width ∧ p.Crossed (1 / 10 ^ 9) j := by
    intro j hj
    have hbounds : j < p.width ∧ p.lowerOf j = .fin 2 ∧ p.upperOf j = .fin 1 := by
      revert j
      decide +kernel
    exact ⟨hbounds.1, 2, 1, hbounds.2.1, hbounds.2.2, by norm_num, by norm_num⟩
  obtain ⟨s, hnew⟩ : ∃ s, Simplex.new p .default = .ok s := ⟨_, new_eq hvalidate⟩
  exact ⟨s, hnew, (solve_crossed hwf hprimal hpivot (.new hnew) none).2 {1, 2} hcrossed (by decide)⟩

/-- The row `2 ≤ x ≤ 1` is contradictory. It is violated from below at first; it then leaves
the basis at its lower bound, above its upper bound, and the solve ends with `x = 2`. -/
theorem crossed_row_called_optimal :
    let p : Problem (Exact ℚ) :=
      { cost := #[.fin 1]
        a := ⟨1, 1, .byColumn, #[[(0, .fin 1)]]⟩
        rowLower := #[.fin 2], rowUpper := #[.fin 1]
        colLower := #[.fin 0], colUpper := #[.fin 10] }
    (Settings.default : Settings (Exact ℚ)).tolPrimal = .fin (1 / 10 ^ 9) ∧
      p.Crossed (1 / 10 ^ 9) 1 ∧
      ∃ s : Simplex (Exact ℚ), Simplex.new p .default = .ok s ∧
        (s.solve none).1.status = .optimal ∧ (s.solve none).1.x = #[.fin 2] ∧
        (s.solve none).1.rowActivity = #[.fin 2] := by
  intro p
  have hvalidate : p.validate = .ok () := by decide +kernel
  refine ⟨by decide +kernel, ⟨2, 1, by decide +kernel, by decide +kernel, by norm_num, by norm_num⟩,
    _, new_eq hvalidate, ?_⟩
  decide +kernel

end Simplex

end BranchAndCut.Lp

import BranchAndCut.Proofs.Order
import BranchAndCut.Solve.Incumbent

/-! # Values that improve on the incumbent

A value improves if it beats the cutoff by more than the tolerance, so that no node whose
bound it meets is pruned. What improves on a better incumbent has improved before. -/

namespace BranchAndCut.Incumbent

/-! ## The value to beat -/

section Target

variable {F : Type} [Field F] [LinearOrder F] [FloorRing F] [Rooted F] {absTol c c' q : Exact F}

/-- A cutoff less its tolerance. -/
def target (absTol c : Exact F) : Exact F :=
  c - if Scalar.isFinite c then Scalar.max absTol (1e-9 * Scalar.abs c) else 0

theorem target_ne_nan (htol : 0 ≤ absTol) (hc : c ≠ .nan) : target absTol c ≠ .nan := by
  rw [Exact.zero_def] at htol
  match c, absTol, htol with
  | .fin a, .fin t, _ =>
    have hscale : (1e-9 : Exact F) * Scalar.abs (.fin a) = .fin (1e-9 * |a|) := rfl
    unfold target
    rw [Exact.isFinite_fin, if_pos rfl, hscale, Exact.max_fin, Exact.fin_sub]
    nofun
  | .fin _, .posInf, _ => nofun
  | .posInf, _, _ => nofun
  | .negInf, _, _ => nofun
  | .nan, _, _ => exact absurd rfl hc

variable [IsStrictOrderedRing F]

omit [FloorRing F] [Rooted F] in
/-- The relative tolerance takes away less than a fall of the cutoff gives. -/
theorem max_tolerance_le {t a a' : F} (h : a' ≤ a) : a' - max t (1e-9 * |a'|) ≤ a - max t (1e-9 * |a|) := by
  have habs : |a| ≤ |a'| + (a - a') := by
    rw [← abs_of_nonneg (sub_nonneg.mpr h)]
    calc |a| = |a' + (a - a')| := by rw [add_sub_cancel]
      _ ≤ |a'| + |a - a'| := abs_add_le _ _
  have hmax : max t (1e-9 * |a|) ≤ max t (1e-9 * |a'|) + (a - a') := by
    refine max_le ?_ ?_
    · linarith [le_max_left t (1e-9 * |a'|)]
    · linarith [le_max_right t (1e-9 * |a'|)]
  linarith

theorem lt_target_mono (htol : 0 ≤ absTol) (hc : c' ≤ c) (h : q < target absTol c') :
    q < target absTol c := by
  have hscale : ∀ a : F, (1e-9 : Exact F) * Scalar.abs (.fin a) = .fin (1e-9 * |a|) := fun _ => rfl
  match c, c', hc with
  | .posInf, c', _ =>
    -- an infinite cutoff has no tolerance
    have hdefined := (Exact.ne_nan_of_lt h).1
    cases q with
    | nan => exact absurd rfl hdefined
    | posInf => cases htarget : target absTol c' <;> rw [htarget] at h <;> exact h.elim
    | negInf => trivial
    | fin a => trivial
  | .fin a, .negInf, _ => cases q <;> exact h.elim
  | .negInf, .negInf, _ => exact h
  | .fin a, .fin a', hle =>
    unfold target at h ⊢
    rw [Exact.isFinite_fin, if_pos rfl, hscale] at h ⊢
    match absTol, htol with
    | .posInf, _ => cases q <;> exact h.elim
    | .fin t, _ =>
      rw [Exact.max_fin, Exact.fin_sub] at h ⊢
      exact Exact.lt_of_lt_of_le' h ((Exact.fin_le _ _).mpr (max_tolerance_le ((Exact.fin_le _ _).mp hle)))

/-- **A lower cutoff** has a lower value to beat. -/
theorem target_mono (htol : 0 ≤ absTol) (hc : c' ≤ c) : target absTol c' ≤ target absTol c := by
  obtain ⟨hc', hdefined⟩ := Exact.ne_nan_of_le hc
  have htarget := target_ne_nan htol hdefined
  refine Exact.le_of_not_lt (target_ne_nan htol hc') htarget fun hlt => ?_
  exact Exact.not_lt_of_le (Exact.le_refl' htarget) (lt_target_mono htol hc hlt)

end Target

/-! ## Values that improve -/

variable [Rooted ℚ] {b b' : Incumbent (Exact ℚ)} {q bound obj : Exact ℚ} {x : Array (Exact ℚ)}

/-- The value beats the cutoff by more than the tolerance. -/
def Improves (b : Incumbent (Exact ℚ)) (q : Exact ℚ) : Prop := q < b.cutoff - b.tolerance

/-- A node with such a bound is not pruned. -/
theorem Improves.not_prunable (h : b.Improves q) (hbound : bound ≤ q) : b.isPrunable bound = false :=
  decide_eq_false fun hle => Exact.not_lt_of_le (Exact.le_trans' hle hbound) h

/-- The dual bound does not matter. -/
theorem Improves.of_updateDual {lowest : Exact ℚ} (h : (b.updateDual lowest).Improves q) : b.Improves q := by
  unfold updateDual at h
  dsimp only at h
  split at h
  · exact h
  · exact h

theorem improves_iff : b.Improves q ↔ q < target b.absTol b.cutoff := Iff.rfl

/-- What improves lies below the cutoff. -/
theorem Improves.lt_cutoff (htol : 0 ≤ b.absTol) (h : b.Improves q) : q < b.cutoff := by
  have htarget := improves_iff.mp h
  unfold target at htarget
  generalize b.cutoff = c at htarget ⊢
  cases c with
  | fin a =>
    have hscale : (1e-9 : Exact ℚ) * Scalar.abs (.fin a) = .fin (1e-9 * |a|) := rfl
    rw [Exact.isFinite_fin, if_pos rfl, hscale] at htarget
    refine Exact.lt_of_lt_of_le' htarget (Exact.sub_le_fin ?_ (Exact.le_refl' (Exact.fin_ne_nan a)))
    exact Exact.le_max_of_le htol
  | posInf => exact htarget
  | negInf => exact htarget
  | nan => cases q <;> exact htarget.elim

/-! ## Solutions offered -/

/-- **A better incumbent** leaves fewer values to improve on it. -/
theorem Improves.of_offer (htol : 0 ≤ b.absTol) (hprimal : b.primal ≠ .nan) (hoffer : b.offer x obj = (true, b'))
    (h : b'.Improves q) : b.Improves q := by
  unfold offer at hoffer
  split at hoffer
  · cases hoffer
  next hbetter =>
  cases hoffer
  rw [Bool.or_eq_true, Bool.or_eq_true, not_or, not_or, decide_eq_true_eq, decide_eq_true_eq, Bool.not_eq_true,
    Bool.not_eq_false'] at hbetter
  obtain ⟨⟨hfinite, hless⟩, -⟩ := hbetter
  obtain ⟨a, rfl⟩ := Exact.isFinite_iff.mp hfinite
  have hle : Exact.fin a ≤ b.primal := Exact.le_of_lt (Exact.lt_of_not_le (Exact.fin_ne_nan a) hprimal hless)
  suffices hmono : Scalar.min (.fin a) b.objLimit ≤ b.cutoff from lt_target_mono htol hmono h
  have hnan : Scalar.isNaN b.primal = false := Bool.eq_false_iff.mpr fun hn => hprimal (Exact.isNaN_iff.mp hn)
  unfold cutoff Scalar.min
  rw [Exact.isNaN_fin, hnan, if_neg Bool.false_ne_true, if_neg Bool.false_ne_true]
  split
  · next hlimit =>
    rw [if_pos (Exact.lt_of_lt_of_le' hlimit hle)]
    exact Exact.le_refl' (Exact.ne_nan_of_lt hlimit).1
  · next hlimit =>
    split
    · next hlower => exact Exact.le_of_not_lt (Exact.fin_ne_nan a) (Exact.ne_nan_of_lt hlower).1 hlimit
    · exact hle

/-- **After a solution was offered**, no value that it reaches improves any more. -/
theorem not_improves_offer (htol : 0 ≤ b.absTol) {a : ℚ} (ha : .fin a ≤ q) :
    ¬ (b.offer x (.fin a)).2.Improves q := by
  intro h
  have hcut : (b.offer x (.fin a)).2.absTol = b.absTol ∧ (b.offer x (.fin a)).2.cutoff ≤ .fin a := by
    unfold offer
    by_cases hworse : (!Scalar.isFinite (Exact.fin a) || decide (b.primal ≤ .fin a) || decide (b.objLimit ≤ .fin a)) = true
    · rw [if_pos hworse]
      refine ⟨rfl, ?_⟩
      rw [Exact.isFinite_fin, Bool.not_true, Bool.false_or, Bool.or_eq_true, decide_eq_true_eq, decide_eq_true_eq] at hworse
      rcases hworse with hless | hlimit
      · exact Exact.min_le_of_le hless
      · exact Exact.le_trans' (Exact.min_le_right' (Exact.ne_nan_of_le hlimit).1) hlimit
    · rw [if_neg hworse]
      exact ⟨rfl, Exact.min_le_of_le (Exact.le_refl' (Exact.fin_ne_nan a))⟩
  exact Exact.not_lt_of_le (Exact.le_trans' hcut.2 ha) (h.lt_cutoff (hcut.1 ▸ htol))

end BranchAndCut.Incumbent

import BranchAndCut.Proofs.Domain.Calls
import BranchAndCut.Proofs.Domain.Enclosure

/-! # Local domains lie in the global ones

The bounds of an integral variable are in order and within the global bounds in
every store that the operations can build, provided they are at creation either
in order or apart by more than the tolerance. A domain that is empty by less
counts as nonempty, and the first tightening of one of its bounds loosens it. -/

namespace BranchAndCut.Domains

variable [Rooted ℚ] {d e : Domains (Exact ℚ)}

/-- Bounds in order, or so far apart that the domain is known to be empty. -/
def Apart (tol lower upper : Exact ℚ) : Prop := lower ≤ upper ∨ upper + tol < lower

/-- Stores that the operations can build. -/
inductive Reachable : Domains (Exact ℚ) → Prop
  | new {lower upper : Array (Exact ℚ)} {integral : Array Bool} {tol : Exact ℚ} (htol : 0 ≤ tol)
      (hupper : upper.size = lower.size) (hintegral : integral.size = lower.size)
      (hapart : ∀ v, integral.getD v false = true →
        Apart tol (lower.getD v 0) (upper.getD v 0)) :
      Reachable (new lower upper integral tol)
  | addVariable {d : Domains (Exact ℚ)} (h : Reachable d) (lower upper : Exact ℚ) (integral : Bool)
      (hapart : integral = true → Apart d.tol lower upper) :
      Reachable (d.addVariable lower upper integral).2
  | tighten {d : Domains (Exact ℚ)} (h : Reachable d) {v : VarId} (hv : v < d.numVars)
      (kind : BoundKind) (value : Exact ℚ) (reason : Reason) :
      Reachable (d.tighten v kind value reason).2
  | restore {d : Domains (Exact ℚ)} (h : Reachable d) (target : List NodeId)
      {delta : NodeId → List (BoundChange (Exact ℚ))}
      (hdelta : ∀ node ∈ target, ∀ c ∈ delta node, c.var < d.numVars) :
      Reachable (d.restore target delta).2
  | reset {d : Domains (Exact ℚ)} (h : Reachable d) : Reachable d.reset
  | drainPending {d : Domains (Exact ℚ)} (h : Reachable d) : Reachable d.drainPending.2
  | clearPending {d : Domains (Exact ℚ)} (h : Reachable d) : Reachable d.clearPending

/-- The bounds of a variable are nested, or have stayed apart since its creation. -/
def NestedAt (d : Domains (Exact ℚ)) (v : VarId) : Prop :=
  (d.globalLb v ≤ d.lb v ∧ d.lb v ≤ d.ub v ∧ d.ub v ≤ d.globalUb v) ∨
    (d.globalLb v = d.lb v ∧ d.globalUb v = d.ub v ∧ d.ub v + d.tol < d.lb v)

structure Nested (d : Domains (Exact ℚ)) : Prop where
  tol : 0 ≤ d.tol
  globalLower : d.globalLower.size = d.lower.size
  globalUpper : d.globalUpper.size = d.upper.size
  upper : d.upper.size = d.lower.size
  integral : d.integral.size = d.lower.size
  inRange : ∀ f ∈ d.frames, ∀ c ∈ f.changes, c.var < d.numVars
  nested : ∀ v, d.isIntegral v = true → d.NestedAt v

theorem Nested.agree (h : Nested d) (hde : Agree d e) : Nested e := by
  rw [hde.eq_with]
  exact ⟨h.tol, h.globalLower, h.globalUpper, h.upper, h.integral, hde.frames ▸ h.inRange, h.nested⟩

theorem rounded_ne_nan {t : ℚ} (htol : d.tol = .fin t) (v : VarId) (kind : BoundKind)
    {value : Exact ℚ} (h : Scalar.isNaN value ≠ true) : d.rounded v kind value ≠ .nan := by
  unfold rounded
  rw [htol]
  cases value with
  | nan => exact (h rfl).elim
  | _ => split <;> cases kind <;> nofun

/-- Bounds known to be apart are never tightened. -/
theorem judge_of_apart (htol : 0 ≤ d.tol) {v : VarId} (h : d.ub v + d.tol < d.lb v)
    (kind : BoundKind) (value : Exact ℚ) : (d.judge v kind value).1 ≠ .applied := by
  obtain ⟨t, ht⟩ := Exact.exists_fin_of_add_lt htol h
  have hlb := (Exact.ne_nan_of_lt h).2
  have hsub : d.ub v < d.lb v - d.tol := by
    rw [ht] at h ⊢
    exact Exact.lt_sub_of_add_lt h
  intro happlied
  cases kind with
  | lower =>
    rw [judge_lower] at happlied
    split_ifs at happlied with hnan hred hinf
    exact hinf (Exact.lt_of_lt_of_le' h
      (le_of_not_le_add_boundEps hlb (rounded_ne_nan ht v .lower hnan) hred))
  | upper =>
    rw [judge_upper] at happlied
    split_ifs at happlied with hnan hred hinf
    exact hinf (Exact.lt_of_le_of_lt'
      (le_of_not_sub_boundEps_le (Exact.ne_nan_of_lt hsub).1 (rounded_ne_nan ht v .upper hnan) hred)
      hsub)

/-- What is between the bounds can be recorded. -/
theorem NestedAt.record {v w : VarId} (hw : d.NestedAt w) (htol : 0 ≤ d.tol) {kind : BoundKind}
    {value : Exact ℚ} (hv : w = v → d.lb v ≤ value ∧ value ≤ d.ub v)
    (hglobalLower : d.globalLower.size = d.lower.size)
    (hglobalUpper : d.globalUpper.size = d.upper.size) (reason : Reason) :
    (d.record v kind value reason).NestedAt w := by
  unfold NestedAt
  rw [lb_record, ub_record, globalLb_record, globalUb_record, hglobalLower, hglobalUpper, record_tol]
  by_cases hwv : w = v
  · subst hwv
    replace hv := hv rfl
    have hne := Exact.ne_nan_of_le hv.1
    rcases hw with ⟨hlower, -, hupper⟩ | ⟨-, -, hapart⟩
    · left
      have hglobalLower := Exact.le_trans' hlower hv.1
      have hglobalUpper := Exact.le_trans' hv.2 hupper
      have hmax := Exact.max_le' hglobalLower (Exact.le_refl' hne.2)
      have hmin := Exact.le_min' hglobalUpper (Exact.le_refl' hne.2)
      have hle := Exact.le_trans' hv.1 hv.2
      cases kind <;> simp only [reduceCtorEq, false_and, if_false, true_and]
      · split_ifs with h h' h'
        · exact ⟨hmax, hv.2, hupper⟩
        · exact (h' h.2).elim
        · exact ⟨hglobalLower, hv.2, hupper⟩
        · exact ⟨hlower, hle, hupper⟩
      · split_ifs with h h' h'
        · exact ⟨hlower, hv.1, hmin⟩
        · exact ⟨hlower, hv.1, hglobalUpper⟩
        · exact (h h'.2).elim
        · exact ⟨hlower, hle, hupper⟩
    · exact (Exact.not_add_lt_of_le htol (Exact.le_trans' hv.1 hv.2) hapart).elim
  · simp only [hwv, false_and, and_false, if_false]
    exact hw

theorem Nested.aligned (h : Nested d) : Aligned d :=
  ⟨h.globalLower, h.globalUpper.trans h.upper, h.upper, h.integral, h.inRange⟩

theorem Nested.of_aligned (h : Aligned d) (htol : 0 ≤ d.tol) (hnested : ∀ v, d.isIntegral v = true → d.NestedAt v) :
    Nested d :=
  ⟨htol, h.globalLower, h.globalUpper.trans h.upper.symm, h.upper, h.integral, h.inRange, hnested⟩

theorem Nested.tighten (h : Nested d) {v : VarId} (hv : v < d.numVars) (kind : BoundKind)
    (value : Exact ℚ) (reason : Reason) : Nested (d.tighten v kind value reason).2 := by
  have hapart := fun hlt => judge_of_apart h.tol (v := v) hlt kind value
  have hbetween : d.lb v ≤ d.ub v → (d.judge v kind value).1 = .applied →
      d.lb v ≤ (d.judge v kind value).2 ∧ (d.judge v kind value).2 ≤ d.ub v := fun h => judge_between h
  unfold Domains.tighten
  cases hj : d.judge v kind value with
  | mk outcome value' =>
    rw [hj] at hapart hbetween
    cases outcome with
    | redundant => exact h
    | infeasible => exact h
    | applied =>
      refine .of_aligned (h.aligned.record kind value' reason hv) ?_ fun w hw => ?_
      · simpa using h.tol
      · have hint : d.isIntegral w = true := by simpa [isIntegral] using hw
        have hnested := h.nested w hint
        refine hnested.record h.tol (fun hwv => ?_) h.globalLower h.globalUpper reason
        subst hwv
        rcases hnested with ⟨-, hle, -⟩ | ⟨-, -, hlt⟩
        · exact hbetween hle rfl
        · exact (hapart hlt rfl).elim

theorem Nested.offPath (h : Nested d) : Nested d.offPath := by
  refine .of_aligned h.aligned.offPath h.tol fun v hv => ?_
  rcases h.nested v hv with ⟨hlower, hle, hupper⟩ | ⟨hlower, hupper, hlt⟩
  · have hne := Exact.ne_nan_of_le hlower
    have hne' := Exact.ne_nan_of_le hupper
    exact .inl ⟨Exact.le_refl' hne.1, Exact.le_trans' hlower (Exact.le_trans' hle hupper),
      Exact.le_refl' hne'.2⟩
  · refine .inr ⟨rfl, rfl, ?_⟩
    rw [← hlower, ← hupper] at hlt
    exact hlt

theorem Nested.push (h : Nested d) (node : NodeId) : Nested (d.push node) :=
  .of_aligned (h.aligned.push node) h.tol h.nested

theorem nested_agree (d e : Domains (Exact ℚ)) (hde : Agree d e) (h : Nested d) : Nested e :=
  h.agree hde

/-! ## Building stores -/

theorem Nested.addVariable (h : Nested d) {lower upper : Exact ℚ} {integral : Bool}
    (hapart : integral = true → Apart d.tol lower upper) :
    Nested (d.addVariable lower upper integral).2 := by
  refine .of_aligned (h.aligned.addVariable lower upper integral) h.tol fun v hv => ?_
  unfold NestedAt
  rw [h.aligned.isIntegral_addVariable] at hv
  rw [lb_addVariable, h.aligned.ub_addVariable, h.aligned.globalLb_addVariable, h.aligned.globalUb_addVariable]
  split at hv
  · next hnew =>
    simp only [if_pos hnew]
    rcases hapart hv with hle | hlt
    · have hne := Exact.ne_nan_of_le hle
      exact .inl ⟨Exact.le_refl' hne.1, hle, Exact.le_refl' hne.2⟩
    · exact .inr ⟨trivial, trivial, hlt⟩
  · next hold =>
    simp only [if_neg hold]
    exact h.nested v hv

/-- Each part of a call keeps the bounds of integral variables nested. -/
theorem kept_nested : KeptByCalls (fun tol lower upper integral => integral = true → Apart tol lower upper) Nested where
  aligned _ h := h.aligned
  agree := nested_agree
  tighten _ _ kind value reason hv h := h.tighten hv kind value reason
  push _ node h := h.push node
  offPath _ _ h := h.offPath
  addVariable _ _ _ _ hapart h := h.addVariable hapart

theorem Reachable.levels (h : Reachable d) : Levels Nested d := by
  induction h with
  | @new lower upper integral tol htol hupper hintegral hapart =>
    intro k hk
    obtain rfl : k = 0 := Nat.le_zero.mp hk
    refine ⟨htol, rfl, rfl, hupper, hintegral, nofun, fun v hv => ?_⟩
    rcases hapart v hv with hle | hlt
    · have hne := Exact.ne_nan_of_le hle
      exact .inl ⟨Exact.le_refl' hne.1, hle, Exact.le_refl' hne.2⟩
    · exact .inr ⟨rfl, rfl, hlt⟩
  | addVariable _ lower upper integral hapart ih => exact kept_nested.levels_call ih (.addVariable hapart)
  | tighten _ hv kind value reason ih => exact kept_nested.levels_call ih (.tighten hv kind value reason)
  | restore _ target hdelta ih => exact kept_nested.levels_call ih (.restore target hdelta)
  | reset _ ih => exact kept_nested.levels_call ih .reset
  | drainPending _ ih => exact kept_nested.levels_call ih .drainPending
  | clearPending _ ih => exact kept_nested.levels_call ih .clearPending

/-- In a store that the operations can build a point of the local domain is in the
global domain of every integral variable. -/
theorem Reachable.enclosesGlobally (h : Reachable d) {p : Point} (hp : d.Encloses p) {v : VarId}
    (hv : d.isIntegral v = true) : d.EnclosesGlobally p v := by
  have hnested := h.levels.top
  rcases hnested.nested v hv with ⟨hlower, -, hupper⟩ | ⟨-, -, hlt⟩
  · exact ⟨Exact.le_trans' hlower (hp.lower v), Exact.le_trans' (hp.upper v) hupper⟩
  · exact (Exact.not_add_lt_of_le hnested.tol (hp.lb_le_ub v) hlt).elim

end BranchAndCut.Domains

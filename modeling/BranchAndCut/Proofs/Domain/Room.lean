import BranchAndCut.Proofs.Domain.Completion
import BranchAndCut.Proofs.Domain.Width

/-! # Bounded domains of integers

Where all variables are integral with finite whole bounds and the tolerance is below one,
every applied request moves a bound by at least one. So there are no more applied requests
than there is room between the bounds. Variables whose bounds cross have no room, and none
of their bounds is moved. -/

namespace BranchAndCut

open Domains

variable [Rooted ℚ] {t : ℚ} {n : Nat} {d : Domains (Exact ℚ)} {v w : VarId} {kind : BoundKind} {value new : Exact ℚ}
  {reason : Reason}

namespace Domains

/-- All variables are integral, with finite whole bounds. -/
structure Bounded (t : ℚ) (n : Nat) (d : Domains (Exact ℚ)) : Prop where
  placed : Placed True d
  tol : d.tol = .fin t
  below : t < 1
  numVars : d.numVars = n
  integral : ∀ v < n, d.isIntegral v = true
  whole : ∀ v < n, ∀ kind, ∃ z : ℤ, d.bound v kind = .fin z

theorem Bounded.agree {e : Domains (Exact ℚ)} (h : Bounded t n d) (hde : Agree d e) : Bounded t n e := by
  have hplaced := placed_agree d e hde h.placed
  rw [hde.eq_with] at hplaced ⊢
  exact ⟨hplaced, h.tol, h.below, h.numVars, h.integral, h.whole⟩

/-- By how many steps the bounds can move until they meet. -/
def room (d : Domains (Exact ℚ)) : Nat := ∑ v ∈ Finset.range d.numVars, ⌊d.widthAt v⌋.toNat

/-- What is applied is a whole number between the bounds, and it is tighter than the bound
before it. -/
structure Steps (d : Domains (Exact ℚ)) (v : VarId) (kind : BoundKind) (new : Exact ℚ) (a b z : ℤ) : Prop where
  lb : d.lb v = .fin a
  ub : d.ub v = .fin b
  new : new = .fin z
  low : a ≤ z
  high : z ≤ b
  tighter : match kind with
    | .lower => a < z
    | .upper => z < b

theorem Bounded.steps (h : Bounded t n d) (hv : v < n) (happlied : d.judge v kind value = (.applied, new)) :
    new = d.rounded v kind value ∧ ∃ a b z : ℤ, d.Steps v kind new a b z := by
  have hwhole : ∀ k, Scalar.Whole (d.bound v k) := fun k => by
    obtain ⟨z, hz⟩ := h.whole v hv k
    exact hz ▸ Exact.whole_intCast z
  have hdefined : ∀ k, d.bound v k ≠ .nan := fun k => by
    obtain ⟨z, hz⟩ := h.whole v hv k
    exact hz ▸ Exact.fin_ne_nan _
  have hfinite : Scalar.isFinite (d.bound v kind) = true := by
    obtain ⟨z, hz⟩ := h.whole v hv kind
    rw [hz]
    rfl
  obtain ⟨hrounded, hlow, hhigh⟩ := judge_applied_whole h.tol h.below (h.integral v hv) hwhole hdefined happlied
  have htighter := judge_whole_tighter h.tol h.below (h.integral v hv) hwhole hdefined hfinite happlied
  have hnew : Scalar.Whole new := hrounded ▸ rounded_whole (h.integral v hv) kind value
  obtain ⟨a, ha⟩ := h.whole v hv .lower
  obtain ⟨b, hb⟩ := h.whole v hv .upper
  have ha' : d.lb v = .fin a := ha
  have hb' : d.ub v = .fin b := hb
  refine ⟨hrounded, a, b, ?_⟩
  rw [ha'] at hlow
  rw [hb'] at hhigh
  cases new with
  | fin x =>
    obtain ⟨z, rfl⟩ := Exact.exists_int_of_whole hnew
    rw [Exact.fin_le] at hlow hhigh
    refine ⟨z, ha', hb', rfl, by exact_mod_cast hlow, by exact_mod_cast hhigh, ?_⟩
    cases kind with
    | lower =>
      rw [ha] at htighter
      have hlt : (a : ℚ) < z := htighter
      exact_mod_cast hlt
    | upper =>
      rw [hb] at htighter
      have hlt : (z : ℚ) < b := htighter
      exact_mod_cast hlt
  | _ => first | exact hlow.elim | exact hhigh.elim

theorem Bounded.bound_record (h : Bounded t n d) (hv : v < n) (kind : BoundKind) (new : Exact ℚ) (reason : Reason) :
    (d.record v kind new reason).bound v kind = new :=
  bound_record_self h.placed.aligned (h.numVars.symm ▸ hv) kind new reason

/-- A recorded bound moves inwards. -/
theorem Bounded.inward (h : Bounded t n d) (hv : v < n) (happlied : d.judge v kind value = (.applied, new)) :
    kind.Inward (d.bound v kind) new := by
  obtain ⟨-, a, b, z, hstep⟩ := h.steps hv happlied
  rw [hstep.new]
  cases kind with
  | lower =>
    have hle : d.lb v ≤ .fin z := by
      rw [hstep.lb, Exact.fin_le]
      exact_mod_cast hstep.low
    exact hle
  | upper =>
    have hle : .fin z ≤ d.ub v := by
      rw [hstep.ub, Exact.fin_le]
      exact_mod_cast hstep.high
    exact hle

theorem Bounded.record (h : Bounded t n d) (hv : v < n) (happlied : d.judge v kind value = (.applied, new)) (reason : Reason) :
    Bounded t n (d.record v kind new reason) := by
  have hplaced := h.placed.tighten (h.numVars.symm ▸ hv) kind value reason
  rw [tighten_of_applied happlied] at hplaced
  obtain ⟨-, a, b, z, hstep⟩ := h.steps hv happlied
  refine ⟨hplaced, (record_tol ..).trans h.tol, h.below, (record_numVars ..).trans h.numVars, fun w hw => ?_, fun w hw k => ?_⟩
  · simpa [isIntegral] using h.integral w hw
  · rcases Domains.bound_record (d := d) v w kind k new reason with hsame | ⟨-, -, heq⟩
    · rw [hsame]
      exact h.whole w hw k
    · exact ⟨z, heq.trans hstep.new⟩

theorem record_opposite (d : Domains (Exact ℚ)) (v : VarId) (kind : BoundKind) (new : Exact ℚ) (reason : Reason) :
    (d.record v kind new reason).bound v kind.opposite = d.bound v kind.opposite := by
  rcases Domains.bound_record (d := d) v v kind kind.opposite new reason with hsame | ⟨-, hkind, -⟩
  · exact hsame
  · cases kind <;> cases hkind

theorem floor_widthAt {a b : ℤ} (hlb : d.lb v = .fin a) (hub : d.ub v = .fin b) : ⌊d.widthAt v⌋ = b - a := by
  rw [widthAt, hlb, hub]
  exact Int.floor_eq_iff.mpr ⟨by push_cast; exact le_refl _, by push_cast; exact lt_add_one _⟩

/-- **An applied request** takes room. -/
theorem Bounded.room_record (h : Bounded t n d) (hv : v < n) (happlied : d.judge v kind value = (.applied, new))
    (reason : Reason) : (d.record v kind new reason).room < d.room := by
  obtain ⟨-, a, b, z, hstep⟩ := h.steps hv happlied
  have hself := h.bound_record hv kind new reason
  have hmem : v ∈ Finset.range d.numVars := by simpa [h.numVars] using hv
  have hless : ⌊(d.record v kind new reason).widthAt v⌋.toNat < ⌊d.widthAt v⌋.toNat := by
    have hlow := hstep.low
    have hhigh := hstep.high
    have htighter := hstep.tighter
    have hother := record_opposite d v kind new reason
    rw [floor_widthAt hstep.lb hstep.ub]
    cases kind with
    | lower =>
      rw [floor_widthAt (hself.trans hstep.new) (hother.trans hstep.ub)]
      simp only at htighter
      omega
    | upper =>
      rw [floor_widthAt (hother.trans hstep.lb) (hself.trans hstep.new)]
      simp only at htighter
      omega
  unfold room
  rw [record_numVars]
  refine Finset.sum_lt_sum (fun w _ => ?_) ⟨v, hmem, hless⟩
  by_cases hwv : w = v
  · exact hwv ▸ hless.le
  · obtain ⟨hlb, hub⟩ := record_other hwv kind new reason (D := d)
    unfold widthAt
    rw [hlb, hub]

/-! ## Bounds in place -/

theorem rounded_record (d : Domains (Exact ℚ)) (v w : VarId) (kind k : BoundKind) (new value : Exact ℚ) (reason : Reason) :
    (d.record v kind new reason).rounded w k value = d.rounded w k value := by
  unfold rounded isIntegral
  rw [record_tol, record_integral]

/-- What a request would not change stays so. -/
theorem Bounded.redundant_record (h : Bounded t n d) (hv : v < n) (happlied : d.judge v kind value = (.applied, new))
    (reason : Reason) {k : BoundKind} {x : Exact ℚ} (hw : (d.judge w k x).1 = .redundant) :
    ((d.record v kind new reason).judge w k x).1 = .redundant := by
  refine judge_redundant.mpr ((judge_redundant.mp hw).imp_right fun hreached => ?_)
  rw [rounded_record]
  rcases Domains.bound_record (d := d) v w kind k new reason with hsame | ⟨rfl, rfl, heq⟩
  · rw [hsame]
    exact hreached
  · rw [heq]
    exact hreached.inward (h.inward hv happlied)

/-- What has been applied would not be changed again. -/
theorem Bounded.redundant_applied (h : Bounded t n d) (hv : v < n) (happlied : d.judge v kind value = (.applied, new))
    (reason : Reason) : ((d.record v kind new reason).judge v kind value).1 = .redundant := by
  obtain ⟨hrounded, a, b, z, hstep⟩ := h.steps hv happlied
  refine judge_redundant.mpr (.inr ?_)
  rw [rounded_record, ← hrounded, h.bound_record hv, hstep.new]
  exact BoundKind.reaches_fin (.refl (Exact.fin_ne_nan _))

/-! ## Fixings -/

/-- A variable that counts as fixed is not changed. -/
theorem Bounded.judge_fixed (h : Bounded t n d) (hfix : Deduction.binaryFixing? d v ≠ none) (kind : BoundKind)
    (value : Exact ℚ) : (d.judge v kind value).1 ≠ .applied := by
  intro happlied
  have hint : d.isIntegral v = true := by
    by_contra hnot
    exact hfix (by simp [Deduction.binaryFixing?, hnot])
  have hv : v < n := by
    by_contra hge
    have hsize : d.integral.size ≤ v := by
      rw [h.placed.aligned.integral]
      exact h.numVars.le.trans (not_lt.mp hge)
    rw [isIntegral, getD_of_size_le _ _ hsize] at hint
    cases hint
  obtain ⟨-, a, b, z, hstep⟩ :=
    h.steps hv (Prod.ext happlied rfl : d.judge v kind value = (.applied, (d.judge v kind value).2))
  rcases h.placed.placed v (h.numVars.symm ▸ hv) with hin | ⟨-, hout⟩
  · have hwhole : ∀ k, Scalar.Whole (d.bound v k) := fun k => by
      obtain ⟨y, hy⟩ := h.whole v hv k
      exact hy ▸ Exact.whole_intCast y
    obtain ⟨-, y, hlb, hub⟩ := point_of_fixing hfix hwhole hin.lower hin.between hin.upper
    exact judge_of_point h.tol h.below hint hlb hub kind value happlied
  · -- what is applied lies between crossing bounds, so that they are the same
    have hcross := hout.between
    rw [hstep.lb, hstep.ub, Exact.fin_le] at hcross
    have hle : b ≤ a := by exact_mod_cast hcross
    have hlow := hstep.low
    have hhigh := hstep.high
    have htighter := hstep.tighter
    cases kind <;> simp only at htighter <;> omega

end Domains

end BranchAndCut

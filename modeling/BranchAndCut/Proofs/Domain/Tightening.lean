import BranchAndCut.Proofs.Domain.Additions
import BranchAndCut.Proofs.Domain.Containment

/-! # What a request does

A request that is redundant or infeasible leaves the store as it is. One that is applied
adds one record and one notice, and tightens its bound except in two cases: where the
domain is a point already, a value beyond it by more than the slack but not by more than
the tolerance stops at the point, and where a bound is infinite, asking for it again is not
recognized, since the slack is infinite as well. -/

namespace BranchAndCut

namespace Exact

variable {F : Type} [Field F] [LinearOrder F] [FloorRing F] [Rooted F] {x y z : Exact F}

theorem lt_of_le_of_ne' (h : x ≤ y) (hne : x ≠ y) : x < y := by
  obtain ⟨hx, hy⟩ := ne_nan_of_le h
  exact lt_of_not_le hx hy fun hge => hne (le_antisymm' h hge)

theorem lt_min' (hx : z < x) (hy : z < y) : z < Scalar.min x y := by
  rcases Scalar.min_cases x y with heq | heq
  · exact heq.symm ▸ hx
  · exact heq.symm ▸ hy

theorem max_lt' (hx : x < z) (hy : y < z) : Scalar.max x y < z := by
  rcases Scalar.max_cases x y with heq | heq
  · exact heq.symm ▸ hx
  · exact heq.symm ▸ hy

end Exact

/-- Whether a bound is tighter than another. -/
def BoundKind.Tighter [Rooted ℚ] (kind : BoundKind) (old new : Exact ℚ) : Prop :=
  match kind with
  | .lower => old < new
  | .upper => new < old

namespace Domains

variable [Rooted ℚ] {t : ℚ} {d e : Domains (Exact ℚ)} {v w : VarId} {kind : BoundKind} {value new : Exact ℚ} {reason : Reason}

/-- The value of a global bound. -/
def globalBound (d : Domains (Exact ℚ)) (v : VarId) : BoundKind → Exact ℚ
  | .lower => d.globalLb v
  | .upper => d.globalUb v

/-! ## Values that are applied -/

/-- Nothing can be gained by a request: the domain is a point, or it is for a bound that is
infinite already. -/
def Idle (d : Domains (Exact ℚ)) (v : VarId) (kind : BoundKind) (value : Exact ℚ) : Prop :=
  d.lb v = d.ub v ∨ value = d.bound v kind ∧ Scalar.isFinite value = false

theorem rounded_of_infinite (htol : d.tol = .fin t) (v : VarId) (kind : BoundKind) (h : Scalar.isFinite value = false) :
    d.rounded v kind value = value := by
  unfold rounded
  rw [htol]
  cases value with
  | fin a => exact absurd h (by simp)
  | _ => cases kind <;> exact ite_self _

theorem rounded_isFinite (htol : d.tol = .fin t) (v : VarId) (kind : BoundKind) :
    Scalar.isFinite (d.rounded v kind value) = Scalar.isFinite value := by
  cases hvalue : Scalar.isFinite value with
  | false => rw [rounded_of_infinite htol v kind hvalue, hvalue]
  | true =>
    obtain ⟨a, rfl⟩ := Exact.isFinite_iff.mp hvalue
    unfold rounded
    rw [htol]
    split <;> cases kind <;> rfl

/-- A value that is not redundant and not the same infinity is tighter. -/
theorem lt_of_not_le_add_boundEps {l x : Exact ℚ} (hl : l ≠ .nan) (hx : x ≠ .nan) (hinf : x = l → Scalar.isFinite x = true)
    (h : ¬ x ≤ l + boundEps l) : l < x := by
  refine Exact.lt_of_le_of_ne' (le_of_not_le_add_boundEps hl hx h) fun heq => h ?_
  obtain ⟨a, rfl⟩ := Exact.isFinite_iff.mp (hinf heq.symm)
  rw [heq]
  exact le_add_boundEps (Exact.fin_ne_nan a) nofun

theorem lt_of_not_sub_boundEps_le {u x : Exact ℚ} (hu : u ≠ .nan) (hx : x ≠ .nan) (hinf : x = u → Scalar.isFinite x = true)
    (h : ¬ u - boundEps u ≤ x) : x < u := by
  refine Exact.lt_of_le_of_ne' (le_of_not_sub_boundEps_le hu hx h) fun heq => h ?_
  obtain ⟨a, rfl⟩ := Exact.isFinite_iff.mp (hinf heq)
  rw [← heq]
  exact sub_boundEps_le (Exact.fin_ne_nan a) nofun

/-- What is applied is tighter, unless nothing can be gained. -/
theorem judge_tighter (htol : d.tol = .fin t) (hle : d.lb v ≤ d.ub v) (hidle : ¬ d.Idle v kind value)
    (happlied : d.judge v kind value = (.applied, new)) : kind.Tighter (d.bound v kind) new := by
  obtain ⟨hlb, hub⟩ := Exact.ne_nan_of_le hle
  have hlt : d.lb v < d.ub v := Exact.lt_of_le_of_ne' hle fun heq => hidle (.inl heq)
  have hinf : d.rounded v kind value = d.bound v kind → Scalar.isFinite (d.rounded v kind value) = true := by
    intro heq
    by_contra hnot
    rw [rounded_isFinite htol, Bool.not_eq_true] at hnot
    exact hidle (.inr ⟨rounded_of_infinite htol v kind hnot ▸ heq, hnot⟩)
  cases kind with
  | lower =>
    obtain ⟨hdefined, hmoves, -, rfl⟩ := judge_lower_applied.mp happlied
    have hr : d.rounded v .lower value ≠ .nan := rounded_ne_nan htol v .lower (by simp [hdefined])
    exact Exact.lt_min' (lt_of_not_le_add_boundEps hlb hr hinf hmoves) hlt
  | upper =>
    obtain ⟨hdefined, hmoves, -, rfl⟩ := judge_upper_applied.mp happlied
    have hr : d.rounded v .upper value ≠ .nan := rounded_ne_nan htol v .upper (by simp [hdefined])
    exact Exact.max_lt' (lt_of_not_sub_boundEps_le hub hr hinf hmoves) hlt

/-- Where nothing can be gained, what is applied is the bound that there was. -/
theorem judge_idle (htol : d.tol = .fin t) (hle : d.lb v ≤ d.ub v) (hidle : d.Idle v kind value)
    (happlied : d.judge v kind value = (.applied, new)) : new = d.bound v kind := by
  rcases hidle with hpoint | ⟨heq, hinf⟩
  · obtain ⟨hlow, hhigh⟩ := applied_between hle happlied
    rw [hpoint] at hlow
    have hnew : new = d.ub v := Exact.le_antisymm' hhigh hlow
    cases kind with
    | lower => exact hnew.trans hpoint.symm
    | upper => exact hnew
  · have hr := rounded_of_infinite htol v kind hinf
    cases kind with
    | lower =>
      obtain ⟨-, -, -, rfl⟩ := judge_lower_applied.mp happlied
      rw [hr, heq]
      exact Exact.min_eq_left' hle
    | upper =>
      obtain ⟨-, -, -, rfl⟩ := judge_upper_applied.mp happlied
      rw [hr, heq]
      exact Exact.max_eq_left' hle

/-! ## What is recorded -/

/-- The second store is the first one with a bound replaced: one record of it at the active
node and one notice are new. At the root the global bound may follow. -/
structure Replaces (d e : Domains (Exact ℚ)) (v : VarId) (kind : BoundKind) (reason : Reason) : Prop where
  others : ∀ w k, ¬ (w = v ∧ k = kind) → e.bound w k = d.bound w k
  globals : ∀ w k, ¬ (w = v ∧ k = kind ∧ d.atRoot = true) → e.globalBound w k = d.globalBound w k
  entry : ∀ f fs, d.frames = f :: fs →
    e.frames = { f with changes := ⟨v, kind, d.bound v kind, e.bound v kind, reason⟩ :: f.changes } :: fs
  event : e.pending = (v, kind) :: d.pending
  shape : e.shape = d.shape
  emptyDomains : e.emptyDomains = d.emptyDomains

theorem bound_record_self (hd : Aligned d) (hv : v < d.numVars) (kind : BoundKind) (new : Exact ℚ) (reason : Reason) :
    (d.record v kind new reason).bound v kind = new := by
  cases kind with
  | lower => exact (lb_record ..).trans (if_pos ⟨rfl, rfl, hv⟩)
  | upper => exact (ub_record ..).trans (if_pos ⟨rfl, rfl, hd.upper ▸ hv⟩)

theorem replaces_record (hd : Aligned d) (hv : v < d.numVars) (kind : BoundKind) (new : Exact ℚ) (reason : Reason) :
    Replaces d (d.record v kind new reason) v kind reason := by
  refine ⟨fun w k hother => ?_, fun w k hother => ?_, ?_, ?_, shape_record d v kind new reason,
    record_emptyDomains d v kind new reason⟩
  · rcases bound_record (d := d) v w kind k new reason with hsame | ⟨hw, hk, -⟩
    · exact hsame
    · exact absurd ⟨hw, hk⟩ hother
  · cases k with
    | lower => exact (globalLb_record ..).trans (if_neg fun h => hother ⟨h.2.2.1, h.1.symm, h.2.1⟩)
    | upper => exact (globalUb_record ..).trans (if_neg fun h => hother ⟨h.2.2.1, h.1.symm, h.2.1⟩)
  · intro f fs hf
    rw [bound_record_self hd hv, record_frames, hf]
  · exact record_pending d v kind new reason

/-- At the root a bound that is recorded and tighter is the global one as well. -/
theorem globalBound_record (hd : Aligned d) (hv : v < d.numVars) (hin : d.Contained v) (hroot : d.atRoot = true)
    (htighter : kind.Tighter (d.bound v kind) new) (reason : Reason) :
    (d.record v kind new reason).globalBound v kind = new := by
  obtain ⟨hlb, hub⟩ := hin.root (by simpa [atRoot] using hroot)
  cases kind with
  | lower =>
    have hle : d.globalLb v ≤ new := hlb ▸ Exact.le_of_lt htighter
    have hsize : v < d.globalLower.size := hd.globalLower ▸ hv
    exact (globalLb_record ..).trans ((if_pos ⟨rfl, hroot, rfl, hsize⟩).trans (Exact.max_eq_right' hle))
  | upper =>
    have hle : new ≤ d.globalUb v := hub ▸ Exact.le_of_lt htighter
    have hsize : v < d.globalUpper.size := hd.globalUpper ▸ hv
    exact (globalUb_record ..).trans ((if_pos ⟨rfl, hroot, rfl, hsize⟩).trans (Exact.min_eq_right' hle))

/-- Bounds in order that have not been crossing lie in the global ones. -/
theorem Placed.contained_of_ne (h : Placed True d) (hv : v < d.numVars) (hle : d.lb v ≤ d.ub v) (hne : d.lb v ≠ d.ub v) :
    d.Contained v :=
  (h.placed v hv).resolve_right fun hout => hne (Exact.le_antisymm' hle hout.2.between)

/-- **What a request does** to a variable whose bounds are in order. A request that is not
applied changes nothing, and it is infeasible only if no value of the variable satisfies the
bound. One that is applied replaces its bound by one that is between the local bounds, adds
one record and one notice, and changes nothing else. It tightens the bound, at the root
together with the global one, if there is anything to be gained, and leaves the bound as it
was if there is not. -/
theorem tighten_outcome (hd : Built (Allowed True) d) (htol : d.tol = .fin t) (hnonneg : 0 ≤ t) (hv : v < d.numVars)
    (hle : d.lb v ≤ d.ub v) (kind : BoundKind) (value : Exact ℚ) (reason : Reason) :
    let e := (d.tighten v kind value reason).2
    match (d.tighten v kind value reason).1 with
    | .redundant => e = d
    | .infeasible => e = d ∧ ∀ q, d.Takes v q → ¬ kind.Admits value q
    | .applied => Replaces d e v kind reason ∧ d.lb v ≤ e.bound v kind ∧ e.bound v kind ≤ d.ub v ∧
        (d.Idle v kind value → e.bound v kind = d.bound v kind) ∧
        (¬ d.Idle v kind value → kind.Tighter (d.bound v kind) (e.bound v kind) ∧
          (d.atRoot = true → e.globalBound v kind = e.bound v kind)) := by
  have haligned : Aligned d := hd.placed.aligned
  unfold Domains.tighten
  cases hjudge : d.judge v kind value with
  | mk outcome new =>
    cases outcome with
    | redundant => rfl
    | infeasible =>
      refine ⟨rfl, fun q hq hadmits => ?_⟩
      have hpos : 0 ≤ d.tol := htol ▸ Exact.zero_le_fin.mpr hnonneg
      exact (judge_admits hq hpos hadmits).1 (congrArg Prod.fst hjudge)
    | applied =>
      obtain ⟨hlow, hhigh⟩ := applied_between hle hjudge
      dsimp only
      rw [bound_record_self haligned hv]
      refine ⟨replaces_record haligned hv kind new reason, hlow, hhigh, fun hidle => judge_idle htol hle hidle hjudge,
        fun hidle => ?_⟩
      have htighter := judge_tighter htol hle hidle hjudge
      refine ⟨htighter, fun hroot => globalBound_record haligned hv ?_ hroot htighter reason⟩
      exact hd.placed.contained_of_ne hv hle fun heq => hidle (.inl heq)

end Domains

namespace Domains

/-- A bound that is tightened below the root. -/
theorem tighten_outcome_below :
    let d : Domains (Exact ℚ) :=
      ((new #[.fin 0, .negInf] #[.fin 10, .posInf] #[true, false] (.fin (1 / 1000000))).restore [0, 1] fun _ => []).2
    let e := (d.tighten 0 .upper (.fin (7 / 2)) .branching).2
    (d.tighten 0 .upper (.fin (7 / 2)) .branching).1 = .applied ∧ Replaces d e 0 .upper .branching ∧
      e.ub 0 < d.ub 0 ∧ e.globalUb 0 = d.globalUb 0 := by
  intro d e
  have hnew : Built (Allowed True) (new #[.fin 0, .negInf] #[.fin 10, .posInf] #[true, false] (.fin (1 / 1000000))) := by
    refine .new rfl rfl fun v hv => .inl ?_
    obtain rfl | rfl : v = 0 ∨ v = 1 := by
      have hlt : v < 2 := hv
      omega
    · decide +kernel
    · trivial
  have hd : Built (Allowed True) d := hnew.call (.restore [0, 1] nofun)
  have happlied : (d.tighten 0 .upper (.fin (7 / 2)) .branching).1 = .applied := by decide +kernel
  have hidle : ¬ d.Idle 0 .upper (.fin (7 / 2)) := by
    intro h
    rcases h with hpoint | ⟨-, hinf⟩
    · exact absurd hpoint (by decide +kernel)
    · exact absurd hinf (by simp)
  have houtcome := tighten_outcome hd rfl (by norm_num : (0 : ℚ) ≤ 1 / 1000000) (by decide +kernel : 0 < d.numVars)
    (by decide +kernel : d.lb 0 ≤ d.ub 0) .upper (.fin (7 / 2)) .branching
  rw [happlied] at houtcome
  obtain ⟨hreplaces, -, -, -, htighter⟩ := houtcome
  exact ⟨happlied, hreplaces, (htighter hidle).1, hreplaces.globals 0 .upper fun h => absurd h.2.2 (by decide +kernel)⟩

/-- **Applied without tightening.** A variable that is fixed is asked for a value beyond the
point, by less than the tolerance, and a free one for the bound that it has. -/
theorem tighten_applied_idle :
    let d : Domains (Exact ℚ) := new #[.fin 0, .negInf] #[.fin 0, .posInf] #[false, false] (.fin (1 / 1000000))
    let point := d.tighten 0 .lower (.fin (1 / 2000000)) .branching
    let free := d.tighten 1 .lower .negInf .branching
    d.lb 0 ≤ d.ub 0 ∧ d.lb 1 ≤ d.ub 1 ∧
      point.1 = .applied ∧ point.2.bound 0 .lower = d.bound 0 .lower ∧ point.2.pending = [(0, .lower)] ∧
      free.1 = .applied ∧ free.2.bound 1 .lower = d.bound 1 .lower ∧ free.2.pending = [(1, .lower)] := by
  decide +kernel

end Domains

end BranchAndCut

import BranchAndCut.Proofs.Domain.Closure
import BranchAndCut.Proofs.Domain.Fixings
import BranchAndCut.Proofs.Domain.InForce
import BranchAndCut.Proofs.Domain.Tightening

/-! # The closure under implications is complete

Where all that fixed variables imply is in force, it is so again after every request, up to
the tolerance and the slack, unless the request meets an empty domain. The tolerance has to
be below one: from one on a fixed variable can be asked for the other value without being
refused, and fixings may chase each other for ever. And no bounds may cross by less than the
tolerance, since those loosen when they are tightened. -/

namespace BranchAndCut

/-- A value that is less tight by a tolerance. -/
def BoundKind.loosen [Rooted ℚ] (kind : BoundKind) (tol value : Exact ℚ) : Exact ℚ :=
  match kind with
  | .lower => value - tol
  | .upper => value + tol

instance [Rooted ℚ] (kind : BoundKind) (old new : Exact ℚ) : Decidable (kind.Inward old new) :=
  match kind with
  | .lower => inferInstanceAs (Decidable (old ≤ new))
  | .upper => inferInstanceAs (Decidable (new ≤ old))

instance [Rooted ℚ] (kind : BoundKind) (bound value : Exact ℚ) : Decidable (kind.Reaches bound value) :=
  match kind with
  | .lower => inferInstanceAs (Decidable (value ≤ bound + Domains.boundEps bound))
  | .upper => inferInstanceAs (Decidable (bound - Domains.boundEps bound ≤ value))

namespace Exact

variable {F : Type} [Field F] [LinearOrder F] [FloorRing F] [Rooted F] [IsStrictOrderedRing F] {x : Exact F} {t : F}

theorem sub_fin_le (ht : 0 ≤ t) (hx : x ≠ nan) : x - fin t ≤ x := by
  cases x with
  | nan => exact (hx rfl).elim
  | fin a =>
    rw [fin_sub, fin_le]
    linarith
  | _ => trivial

theorem le_add_fin (ht : 0 ≤ t) (hx : x ≠ nan) : x ≤ x + fin t := by
  cases x with
  | nan => exact (hx rfl).elim
  | fin a =>
    rw [fin_add, fin_le]
    linarith
  | _ => trivial

omit [IsStrictOrderedRing F] in
theorem le_ceil (hx : x ≠ nan) : x ≤ Scalar.ceil x := by
  cases x with
  | nan => exact (hx rfl).elim
  | fin a => exact Int.le_ceil a
  | _ => trivial

omit [IsStrictOrderedRing F] in
theorem floor_le (hx : x ≠ nan) : Scalar.floor x ≤ x := by
  cases x with
  | nan => exact (hx rfl).elim
  | fin a => exact Int.floor_le a
  | _ => trivial

theorem sub_le_of_not_add_lt {y : Exact F} (hx : x ≠ nan) (hy : y ≠ nan) (h : ¬ y + fin t < x) : x - fin t ≤ y := by
  cases x with
  | nan => exact (hx rfl).elim
  | negInf => cases y <;> first | exact (hy rfl).elim | trivial
  | posInf => cases y <;> first | exact (hy rfl).elim | exact (h trivial).elim | trivial
  | fin a =>
    cases y with
    | nan => exact (hy rfl).elim
    | negInf => exact (h trivial).elim
    | posInf => trivial
    | fin b =>
      rw [fin_add, fin_lt] at h
      rw [fin_sub, fin_le]
      linarith

theorem le_add_of_not_lt_sub {y : Exact F} (hx : x ≠ nan) (hy : y ≠ nan) (h : ¬ x < y - fin t) : y ≤ x + fin t := by
  cases x with
  | nan => exact (hx rfl).elim
  | posInf => cases y <;> first | exact (hy rfl).elim | trivial
  | negInf => cases y <;> first | exact (hy rfl).elim | exact (h trivial).elim | trivial
  | fin a =>
    cases y with
    | nan => exact (hy rfl).elim
    | negInf => trivial
    | posInf => exact (h trivial).elim
    | fin b =>
      rw [fin_sub, fin_lt] at h
      rw [fin_add, fin_le]
      linarith

end Exact

namespace Domains

variable [Rooted ℚ] {t : ℚ} {d e : Domains (Exact ℚ)} {v w : VarId} {kind : BoundKind} {value new : Exact ℚ} {reason : Reason}
  {i : Implication (Exact ℚ)}

/-! ## Whole bounds of fixed variables -/

/-- A bound between whole bounds that is applied is tighter than the finite one before it. -/
theorem judge_whole_tighter (htol : d.tol = .fin t) (hlt : t < 1) (hv : d.isIntegral v = true)
    (hwhole : ∀ kind, Scalar.Whole (d.bound v kind)) (hdefined : ∀ kind, d.bound v kind ≠ .nan)
    (hfinite : Scalar.isFinite (d.bound v kind) = true) (happlied : d.judge v kind value = (.applied, new)) :
    kind.Tighter (d.bound v kind) new := by
  obtain ⟨heq, hlow, hhigh⟩ := judge_applied_whole htol hlt hv hwhole hdefined happlied
  cases kind with
  | lower =>
    obtain ⟨-, hmoves, -⟩ := judge_lower_applied.mp happlied
    rw [← heq] at hmoves
    exact lt_of_not_le_add_boundEps (hdefined .lower) (Exact.ne_nan_of_le hlow).2 (fun h => h ▸ hfinite) hmoves
  | upper =>
    obtain ⟨-, hmoves, -⟩ := judge_upper_applied.mp happlied
    rw [← heq] at hmoves
    exact lt_of_not_sub_boundEps_le (hdefined .upper) (Exact.ne_nan_of_le hlow).2 (fun h => h ▸ hfinite) hmoves

/-- A variable that counts as fixed, with whole bounds in the global ones, is at a point. -/
theorem point_of_fixing (hfix : Deduction.binaryFixing? d v ≠ none) (hwhole : ∀ kind, Scalar.Whole (d.bound v kind))
    (hlower : d.globalLb v ≤ d.lb v) (hle : d.lb v ≤ d.ub v) (hupper : d.ub v ≤ d.globalUb v) :
    d.isIntegral v = true ∧ ∃ z : ℤ, d.lb v = .fin z ∧ d.ub v = .fin z := by
  unfold Deduction.binaryFixing? at hfix
  rw [Exact.zero_def, Exact.one_def, Exact.scientific_def] at hfix
  by_cases hbinary : (!d.isIntegral v || decide (d.globalLb v < .fin 0) || decide (.fin 1 < d.globalUb v)) = true
  · rw [if_pos hbinary] at hfix
    exact absurd rfl hfix
  · rw [if_neg hbinary] at hfix
    simp only [Bool.or_eq_true, Bool.not_eq_true', decide_eq_true_eq, not_or, Bool.not_eq_false] at hbinary
    obtain ⟨⟨hint, hneg⟩, hbig⟩ := hbinary
    have hzero : Exact.fin 0 ≤ d.lb v :=
      Exact.le_trans' (Exact.le_of_not_lt (Exact.fin_ne_nan 0) (Exact.ne_nan_of_le hlower).1 hneg) hlower
    have hone : d.ub v ≤ Exact.fin 1 :=
      Exact.le_trans' hupper (Exact.le_of_not_lt (Exact.ne_nan_of_le hupper).2 (Exact.fin_ne_nan 1) hbig)
    have hlb : Scalar.Whole (d.lb v) := hwhole .lower
    have hub : Scalar.Whole (d.ub v) := hwhole .upper
    refine ⟨hint, ?_⟩
    cases hl : d.lb v with
    | fin a =>
      cases hu : d.ub v with
      | fin b =>
        rw [hl] at hlb hzero hle hfix
        rw [hu] at hub hone hle hfix
        obtain ⟨y, rfl⟩ := Exact.exists_int_of_whole hlb
        obtain ⟨z, rfl⟩ := Exact.exists_int_of_whole hub
        rw [Exact.fin_le] at hzero hone hle
        have hy : 0 ≤ y := by exact_mod_cast hzero
        have hz : z ≤ 1 := by exact_mod_cast hone
        have hyz : y ≤ z := by exact_mod_cast hle
        rcases hyz.eq_or_lt with rfl | hlt
        · exact ⟨y, rfl, rfl⟩
        · -- the only domain left that is not a point is [0, 1], and it is not fixed
          obtain rfl : y = 0 := by omega
          obtain rfl : z = 1 := by omega
          refine absurd ?_ hfix
          rw [if_neg, if_neg]
          · rw [Exact.fin_lt]
            norm_num
          · rw [Exact.fin_lt]
            norm_num
      | _ =>
        rw [hl, hu] at hle
        rw [hu] at hone
        first | exact hle.elim | exact hone.elim
    | _ =>
      rw [hl] at hzero hle
      first
        | exact hzero.elim
        | exact (Exact.le_trans' hle hone).elim

/-- A variable at a whole point is not changed. -/
theorem judge_of_point (htol : d.tol = .fin t) (hlt : t < 1) (hv : d.isIntegral v = true) {z : ℤ} (hlb : d.lb v = .fin z)
    (hub : d.ub v = .fin z) (kind : BoundKind) (value : Exact ℚ) : (d.judge v kind value).1 ≠ .applied := by
  intro happlied
  have hbound : ∀ kind, d.bound v kind = .fin (z : ℚ) := fun kind => by
    cases kind with
    | lower => exact hlb
    | upper => exact hub
  have hwhole : ∀ kind, Scalar.Whole (d.bound v kind) := fun kind => hbound kind ▸ Exact.whole_intCast z
  have hdefined : ∀ kind, d.bound v kind ≠ .nan := fun kind => hbound kind ▸ Exact.fin_ne_nan _
  have hjudge : d.judge v kind value = (.applied, (d.judge v kind value).2) := Prod.ext happlied rfl
  obtain ⟨-, hlow, hhigh⟩ := judge_applied_whole htol hlt hv hwhole hdefined hjudge
  have htighter := judge_whole_tighter htol hlt hv hwhole hdefined (by rw [hbound]; rfl) hjudge
  rw [hlb] at hlow
  rw [hub] at hhigh
  have hnew : (d.judge v kind value).2 = .fin (z : ℚ) := Exact.le_antisymm' hhigh hlow
  rw [hbound, hnew] at htighter
  cases kind <;> exact absurd htighter (lt_irrefl (z : ℚ))

/-! ## Stores without crossing bounds -/

/-- Bounds do not cross by less than the tolerance, which is below one, and those of integral
variables are whole or infinite. -/
structure Regular (t : ℚ) (d : Domains (Exact ℚ)) : Prop where
  nested : Nested d
  tol : d.tol = .fin t
  below : t < 1
  apart : ∀ v, Apart d.tol (d.lb v) (d.ub v)
  whole : ∀ v, d.isIntegral v = true → ∀ kind, Scalar.Whole (d.bound v kind)

theorem Regular.nonneg (h : Regular t d) : 0 ≤ t := by
  have htol := h.nested.tol
  rw [h.tol, Exact.zero_le_fin] at htol
  exact htol

theorem Regular.defined (h : Regular t d) (v : VarId) (kind : BoundKind) : d.bound v kind ≠ .nan := by
  have hboth : d.lb v ≠ .nan ∧ d.ub v ≠ .nan := by
    rcases h.apart v with hle | hlt
    · exact Exact.ne_nan_of_le hle
    · refine ⟨(Exact.ne_nan_of_lt hlt).2, fun hnan => (Exact.ne_nan_of_lt hlt).1 ?_⟩
      rw [hnan, h.tol]
      rfl
  cases kind with
  | lower => exact hboth.1
  | upper => exact hboth.2

/-- What is applied lies between the bounds. -/
theorem Regular.between (h : Regular t d) (happlied : d.judge v kind value = (.applied, new)) :
    d.lb v ≤ d.ub v ∧ d.lb v ≤ new ∧ new ≤ d.ub v := by
  have hle : d.lb v ≤ d.ub v :=
    (h.apart v).resolve_right fun hlt => judge_of_apart h.nested.tol hlt kind value (congrArg Prod.fst happlied)
  exact ⟨hle, applied_between hle happlied⟩

/-- What is applied to an integral variable is the rounded value. -/
theorem Regular.rounded (h : Regular t d) (hv : d.isIntegral v = true) (happlied : d.judge v kind value = (.applied, new)) :
    new = d.rounded v kind value :=
  (judge_applied_whole h.tol h.below hv (h.whole v hv) (h.defined v) happlied).1

/-- Recorded bounds move inwards. -/
theorem Regular.inward (h : Regular t d) (happlied : d.judge v kind value = (.applied, new)) (reason : Reason) (w : VarId)
    (k : BoundKind) : k.Inward (d.bound w k) ((d.record v kind new reason).bound w k) := by
  obtain ⟨-, hlow, hhigh⟩ := h.between happlied
  rcases bound_record (d := d) v w kind k new reason with hsame | ⟨rfl, rfl, heq⟩
  · rw [hsame]
    exact .refl (h.defined w k)
  · rw [heq]
    cases k with
    | lower => exact hlow
    | upper => exact hhigh

theorem Regular.record (h : Regular t d) (hv : v < d.numVars) (happlied : d.judge v kind value = (.applied, new))
    (reason : Reason) : Regular t (d.record v kind new reason) := by
  obtain ⟨hle, hlow, hhigh⟩ := h.between happlied
  have hnested := h.nested.tighten hv kind value reason
  rw [tighten_of_applied happlied reason] at hnested
  refine ⟨hnested, (record_tol ..).trans h.tol, h.below, fun w => ?_, fun w hw k => ?_⟩
  · rw [record_tol]
    by_cases hwv : w = v
    · subst hwv
      have hlb : (d.record w kind new reason).lb w = d.lb w ∨ (d.record w kind new reason).lb w = new :=
        (bound_record w w kind .lower new reason).imp_right fun h => h.2.2
      have hub : (d.record w kind new reason).ub w = d.ub w ∨ (d.record w kind new reason).ub w = new :=
        (bound_record w w kind .upper new reason).imp_right fun h => h.2.2
      left
      rcases hlb with hlb | hlb <;> rcases hub with hub | hub <;> rw [hlb, hub]
      · exact hle
      · exact hlow
      · exact hhigh
      · exact Exact.le_refl' (Exact.ne_nan_of_le hlow).2
    · obtain ⟨hlb, hub⟩ := record_other hwv kind new reason (D := d)
      rw [hlb, hub]
      exact h.apart w
  · have hint : d.isIntegral w = true := by simpa [isIntegral] using hw
    rcases bound_record (d := d) v w kind k new reason with hsame | ⟨rfl, rfl, heq⟩
    · rw [hsame]
      exact h.whole w hint k
    · rw [heq, h.rounded hint happlied]
      exact rounded_whole hint k value

/-- A variable that counts as fixed is not changed. -/
theorem Regular.judge_fixed (h : Regular t d) (hfix : Deduction.binaryFixing? d v ≠ none) (kind : BoundKind)
    (value : Exact ℚ) : (d.judge v kind value).1 ≠ .applied := by
  intro happlied
  have hint : d.isIntegral v = true := by
    by_contra hnot
    exact hfix (by simp [Deduction.binaryFixing?, hnot])
  obtain ⟨hle, -⟩ := h.between (Prod.ext happlied rfl : d.judge v kind value = (.applied, (d.judge v kind value).2))
  rcases h.nested.nested v hint with ⟨hlower, -, hupper⟩ | ⟨-, -, hlt⟩
  · obtain ⟨-, z, hlb, hub⟩ := point_of_fixing hfix (h.whole v hint) hlower hle hupper
    exact judge_of_point h.tol h.below hint hlb hub kind value happlied
  · exact judge_of_apart h.nested.tol hlt kind value happlied

/-! ## Implied bounds in force -/

/-- An implied bound is in force, up to the tolerance and the slack. One that is not a number
asks for nothing. -/
def Upholds (d : Domains (Exact ℚ)) (i : Implication (Exact ℚ)) : Prop :=
  Scalar.isNaN i.value = true ∨ i.kind.Inward i.value (d.bound i.var i.kind) ∨
    i.kind.Reaches (d.bound i.var i.kind) (i.kind.loosen d.tol i.value)

instance (d : Domains (Exact ℚ)) (i : Implication (Exact ℚ)) : Decidable (d.Upholds i) :=
  inferInstanceAs (Decidable (_ ∨ _ ∨ _))

theorem Upholds.inward (h : d.Upholds i) (htol : e.tol = d.tol)
    (hinward : i.kind.Inward (d.bound i.var i.kind) (e.bound i.var i.kind)) : e.Upholds i := by
  rcases h with hnan | hbeyond | hreached
  · exact .inl hnan
  · exact .inr (.inl (hbeyond.trans hinward))
  · refine .inr (.inr ?_)
    rw [htol]
    exact hreached.inward hinward

/-- The value that a request is judged by is as tight as the loosened one. -/
theorem loosen_rounded (htol : d.tol = .fin t) (hnonneg : 0 ≤ t) (hvalue : value ≠ .nan) (v : VarId) (kind : BoundKind) :
    kind.Inward (kind.loosen d.tol value) (d.rounded v kind value) := by
  rw [htol]
  unfold rounded
  rw [htol]
  cases kind with
  | lower =>
    have hdefined : value - .fin t ≠ .nan := (Exact.ne_nan_of_le (Exact.sub_fin_le hnonneg hvalue)).1
    split
    · exact Exact.le_ceil hdefined
    · exact Exact.sub_fin_le hnonneg hvalue
  | upper =>
    have hdefined : value + .fin t ≠ .nan := (Exact.ne_nan_of_le (Exact.le_add_fin hnonneg hvalue)).2
    split
    · exact Exact.floor_le hdefined
    · exact Exact.le_add_fin hnonneg hvalue

theorem Regular.upholds_of_redundant (h : Regular t d) (hjudge : (d.judge i.var i.kind i.value).1 = .redundant) :
    d.Upholds i := by
  rcases judge_redundant.mp hjudge with hnan | hreached
  · exact .inl hnan
  · by_cases hnan : i.value = .nan
    · exact .inl (Exact.isNaN_iff.mpr hnan)
    · exact .inr (.inr (hreached.weaken (loosen_rounded h.tol h.nonneg hnan i.var i.kind)))

/-- A bound that is no tighter than the value but for the tolerance. -/
theorem upholds_of_loosen {b x : Exact ℚ} (hx : x ≠ .nan) (h : kind.Inward (kind.loosen (.fin t) x) b) :
    kind.Inward x b ∨ kind.Reaches b (kind.loosen (.fin t) x) := by
  cases kind with
  | lower =>
    have hle : x - .fin t ≤ b := h
    by_cases hinf : b = .negInf
    · subst hinf
      left
      cases x with
      | negInf => trivial
      | nan => exact (hx rfl).elim
      | _ => exact hle.elim
    · exact .inr (Exact.le_trans' hle (le_add_boundEps (Exact.ne_nan_of_le hle).2 hinf))
  | upper =>
    have hle : b ≤ x + .fin t := h
    by_cases hinf : b = .posInf
    · subst hinf
      left
      cases x with
      | posInf => trivial
      | nan => exact (hx rfl).elim
      | _ => exact hle.elim
    · exact .inr (Exact.le_trans' (sub_boundEps_le (Exact.ne_nan_of_le hle).1 hinf) hle)

/-- A value that is applied is recorded up to the tolerance. -/
theorem Regular.loosen_applied (h : Regular t d) (happlied : d.judge v kind value = (.applied, new)) :
    kind.Inward (kind.loosen (.fin t) value) new := by
  have hdefined : value ≠ .nan := by
    rintro rfl
    cases happlied
  by_cases hint : d.isIntegral v = true
  · rw [h.rounded hint happlied, ← h.tol]
    exact loosen_rounded h.tol h.nonneg hdefined v kind
  · have hrounded : d.rounded v kind value = value := if_neg hint
    cases kind with
    | lower =>
      obtain ⟨-, -, hfeasible, rfl⟩ := judge_lower_applied.mp happlied
      rw [hrounded, h.tol] at hfeasible
      rw [hrounded]
      exact Exact.le_min' (Exact.sub_fin_le h.nonneg hdefined) (Exact.sub_le_of_not_add_lt hdefined (h.defined v .upper) hfeasible)
    | upper =>
      obtain ⟨-, -, hfeasible, rfl⟩ := judge_upper_applied.mp happlied
      rw [hrounded, h.tol] at hfeasible
      rw [hrounded]
      exact Exact.max_le' (Exact.le_add_fin h.nonneg hdefined) (Exact.le_add_of_not_lt_sub hdefined (h.defined v .lower) hfeasible)

theorem Regular.upholds_of_applied (h : Regular t d) (hv : i.var < d.numVars)
    (happlied : d.judge i.var i.kind i.value = (.applied, new)) (reason : Reason) :
    (d.record i.var i.kind new reason).Upholds i := by
  have hdefined : i.value ≠ .nan := by
    intro hnan
    rw [hnan] at happlied
    cases happlied
  right
  rw [bound_record_self h.nested.aligned hv, record_tol, h.tol]
  exact upholds_of_loosen hdefined (h.loosen_applied happlied)

/-- All that fixed variables imply is in force. -/
def ClosedUnder (g : ImplicationGraph (Exact ℚ)) (d : Domains (Exact ℚ)) : Prop :=
  ∀ v value, Deduction.binaryFixing? d v = some value → ∀ i ∈ g.implied v value, d.Upholds i

/-- Only variables that there are count as fixed. -/
theorem closedUnder_iff {g : ImplicationGraph (Exact ℚ)} : ClosedUnder g d ↔ ∀ v < d.integral.size, ∀ value,
    Deduction.binaryFixing? d v = some value → ∀ i ∈ g.implied v value, d.Upholds i := by
  refine ⟨fun h v _ => h v, fun h v value hfix => ?_⟩
  by_cases hv : v < d.integral.size
  · exact h v hv value hfix
  · have hvoid : d.isIntegral v = false := by simp [isIntegral, hv]
    simp [Deduction.binaryFixing?, hvoid] at hfix

instance (g : ImplicationGraph (Exact ℚ)) (d : Domains (Exact ℚ)) : Decidable (ClosedUnder g d) :=
  decidable_of_iff _ closedUnder_iff.symm

end Domains

/-! ## Requests in closed stores -/

namespace Deduction

variable [Rooted ℚ] {g : ImplicationGraph (Exact ℚ)} {t : ℚ} {n : Nat}

open Domains

/-- Fixings in regular stores can be followed, whichever variables are watched. -/
theorem followable_regular (hg : g.InRange n) (P : VarId → Prop) :
    Followable g n (fun d => Regular t d ∧ d.numVars = n) (fun _ v => P v) Upholds where
  numVars _ hd := hd.2
  graph := hg
  keeps _ _ _ _ _ reason hd hv hjudge :=
    ⟨hd.1.record (hd.2.symm ▸ hv) hjudge reason, (record_numVars ..).trans hd.2⟩
  fixed _ _ kind value hd hfix := hd.1.judge_fixed hfix kind value
  stays _ _ _ _ _ reason i hd _ hjudge hU := hU.inward (record_tol ..) (hd.1.inward hjudge reason i.var i.kind)
  reached _ _ _ hd hi hjudge := hd.1.upholds_of_applied (hd.2.symm ▸ hi) hjudge .implication
  redundant _ _ hd hjudge := hd.1.upholds_of_redundant hjudge
  watched _ _ _ _ _ _ := .inl

theorem covers_closedUnder {d : Domains (Exact ℚ)} : Covers g (fun _ _ => True) Upholds d [] [] ↔ ClosedUnder g d := by
  exact ⟨fun h v value hfix => h.settled trivial hfix, fun h v value _ hfix => .inr fun i hi => .inl (h v value hfix i hi)⟩

/-- Fixing a variable loses no point that has the value. -/
theorem fix_feasible {P : Set Point} {d : Deduction (Exact ℚ)} (hP : Candidates g P d.domains) (reason : Reason) {v : VarId}
    {value : Exact ℚ} (hvalue : ∀ p ∈ P, ∀ kind : BoundKind, kind.Admits value (p.coord v)) :
    (fix g reason d v value).1 = .infeasible → P = ∅ := by
  have hlower : ∀ p ∈ P, BoundKind.lower.Admits value (p.coord v) := fun p hp => hvalue p hp .lower
  have hupper : ∀ p ∈ P, BoundKind.upper.Admits value (p.coord v) := fun p hp => hvalue p hp .upper
  obtain ⟨hlow, hempty⟩ := tighten_follows hP reason hlower
  unfold fix
  split
  · next heq =>
    rw [heq] at hempty
    exact hempty
  · next heq =>
    rw [heq] at hlow
    obtain ⟨-, hempty'⟩ := tighten_follows (hP.tightens hlow.domains) reason hupper
    split
    · next heq' =>
      rw [heq'] at hempty'
      exact hempty'
    · intro h
      split at h <;> cases h

/-- What a request comes to that the points of a set satisfy: it ends; all that fixed variables
imply is in force, unless it is infeasible; if it is, it says so, and no point of the domain
that keeps the implications satisfies the request. Each reduction that it counts is one
change at the active node and one notice. -/
structure Completes (g : ImplicationGraph (Exact ℚ)) (S : Set Point) (d : Deduction (Exact ℚ))
    (r : Tightening × Deduction (Exact ℚ)) : Prop where
  ends : r.2.exhausted = d.exhausted
  closed : r.1 ≠ .infeasible → ClosedUnder g r.2.domains
  infeasible : r.1 = .infeasible → r.2.infeasible = true ∧ ∀ p, d.domains.Encloses p → g.Holds p → p ∉ S
  adds : Adds d r.2

theorem regular_of_reachable {d : Domains (Exact ℚ)} (hd : Reachable d) (htol : d.tol = .fin t) (hbelow : t < 1)
    (hapart : ∀ v < d.numVars, Apart d.tol (d.lb v) (d.ub v))
    (hwhole : ∀ v, d.isIntegral v = true → ∀ kind, Scalar.Whole (d.bound v kind)) : Regular t d := by
  have hnested := hd.levels.top
  refine ⟨hnested, htol, hbelow, fun v => ?_, hwhole⟩
  by_cases hv : v < d.numVars
  · exact hapart v hv
  · have hvoid : ¬ v < d.upper.size := by rwa [hnested.upper]
    have hlb : d.lb v = 0 := by simp [Domains.lb, show ¬ v < d.lower.size from hv]
    have hub : d.ub v = 0 := by simp [Domains.ub, hvoid]
    rw [hlb, hub, Exact.zero_def]
    exact .inl (le_refl (0 : ℚ))

theorem candidates_of_reachable {d : Domains (Exact ℚ)} (hd : Reachable d) (S : Set Point) :
    Candidates g {p | d.Encloses p ∧ g.Holds p ∧ p ∈ S} d where
  tol := hd.levels.top.tol
  encloses _ hp := hp.1
  globally _ hp _ hv := hd.enclosesGlobally hp.1 hv
  implications _ hp := hp.2.1

/-- **The closure is complete and it ends.** In a store that the operations can build, without
bounds that cross by less than the tolerance and with a tolerance below one, where integral
variables have whole bounds and all that fixed variables imply is in force, a request for a
bound ends with all that fixed variables imply in force, whatever the implications are, or
is infeasible and no point of the domain satisfies it. So does a request for a value. -/
theorem tighten_completes {d : Deduction (Exact ℚ)} (hd : Reachable d.domains) (htol : d.domains.tol = .fin t) (hbelow : t < 1)
    (hapart : ∀ v < d.domains.numVars, Apart d.domains.tol (d.domains.lb v) (d.domains.ub v))
    (hwhole : ∀ v, d.domains.isIntegral v = true → ∀ kind, Scalar.Whole (d.domains.bound v kind))
    (hg : g.InRange d.domains.numVars) (hclosed : ClosedUnder g d.domains) (reason : Reason)
    {v : VarId} (hv : v < d.domains.numVars) (value : Exact ℚ) :
    (∀ kind : BoundKind, Completes g {p | kind.Admits value (p.coord v)} d (tighten g reason d v kind value)) ∧
      Completes g {p | ∀ kind : BoundKind, kind.Admits value (p.coord v)} d (fix g reason d v value) := by
  have hF := followable_regular (t := t) hg fun _ => True
  have hregular := regular_of_reachable hd htol hbelow hapart hwhole
  have hempty : ∀ S : Set Point, {p | d.domains.Encloses p ∧ g.Holds p ∧ p ∈ S} = ∅ →
      ∀ p, d.domains.Encloses p → g.Holds p → p ∉ S :=
    fun S hS p hp hholds hmem => Set.eq_empty_iff_forall_notMem.mp hS p ⟨hp, hholds, hmem⟩
  constructor
  · intro kind
    have hsettles := hF.tighten ⟨hregular, rfl⟩ hv (covers_closedUnder.mpr hclosed) reason kind value
    obtain ⟨-, hnone⟩ := tighten_follows (candidates_of_reachable (g := g) hd {p | kind.Admits value (p.coord v)}) reason
      fun p hp => hp.2.2
    refine ⟨hsettles.ends, fun hok => covers_closedUnder.mp (hsettles.covers hok), fun hfailed => ?_, ?_⟩
    · exact ⟨hsettles.infeasible hfailed, hempty _ (hnone hfailed)⟩
    · exact (kept_adds d).tighten (fun _ _ _ _ => trivial) trivial (.refl d) reason kind value
  · have hsettles := hF.fix ⟨hregular, rfl⟩ hv (covers_closedUnder.mpr hclosed) reason value
    have hnone := fix_feasible (candidates_of_reachable (g := g) hd {p | ∀ kind : BoundKind, kind.Admits value (p.coord v)}) reason
      fun p hp => hp.2.2
    refine ⟨hsettles.ends, fun hok => covers_closedUnder.mp (hsettles.covers hok), fun hfailed => ?_, ?_⟩
    · exact ⟨hsettles.infeasible hfailed, hempty _ (hnone hfailed)⟩
    · exact (kept_adds d).fix (fun _ _ _ _ => trivial) trivial (.refl d) reason value

end Deduction

namespace Deduction

open Domains

/-- Three binary variables and a continuous one, at the root. -/
def unfixedBinaries : Domains (Exact ℚ) :=
  ((new #[.fin 0, .fin 0, .fin 0, .negInf] #[.fin 1, .fin 1, .fin 1, .posInf] #[true, true, true, false]
    (.fin (1 / 1000000))).restore [0] fun _ => []).2

/-- The first two imply each other, the second excludes the third, and the first bounds the
continuous one. -/
def mutualImplications : ImplicationGraph (Exact ℚ) where
  implications := #[((0, true), ⟨1, .lower, .fin 1⟩), ((1, true), ⟨0, .lower, .fin 1⟩), ((0, true), ⟨3, .upper, .fin (1 / 2)⟩)]
  cliques := #[[1, 2]]

/-- Implications that run in a circle, and a clique. -/
theorem tighten_completes_mutual :
    let d : Deduction (Exact ℚ) := { domains := unfixedBinaries }
    let r := tighten mutualImplications .branching d 0 .lower (.fin 1)
    r.1 = .applied ∧ r.2.domains.lb 1 = .fin 1 ∧ r.2.domains.ub 2 = .fin 0 ∧ r.2.domains.ub 3 = .fin (1 / 2) ∧
      Completes mutualImplications {p | BoundKind.lower.Admits (.fin 1) (p.coord 0)} d r := by
  intro d r
  have htol : (0 : Exact ℚ) ≤ .fin (1 / 1000000) := by decide +kernel
  have hd : Reachable d.domains := by
    have hnew : Reachable (new #[.fin 0, .fin 0, .fin 0, .negInf] #[.fin 1, .fin 1, .fin 1, .posInf]
        #[true, true, true, false] (.fin (1 / 1000000))) := by
      refine .new htol rfl rfl fun v hv => ?_
      rcases v with _ | _ | _ | _ | v
      · exact .inl (by decide +kernel)
      · exact .inl (by decide +kernel)
      · exact .inl (by decide +kernel)
      · cases hv
      · cases hv
    change Reachable unfixedBinaries
    unfold unfixedBinaries
    exact hnew.restore [0] (by simp)
  have hrange : ∀ v, d.domains.isIntegral v = true → v < 4 := by
    intro v hv
    have hsize : d.domains.integral.size = 4 := by decide +kernel
    by_contra hge
    simp [Domains.isIntegral, hsize, hge] at hv
  have hapart : ∀ v < d.domains.numVars, Apart d.domains.tol (d.domains.lb v) (d.domains.ub v) := by
    have hall : ∀ v < 4, d.domains.lb v ≤ d.domains.ub v := by decide +kernel
    exact fun v hv => .inl (hall v hv)
  have hwhole : ∀ v, d.domains.isIntegral v = true → ∀ kind, Scalar.Whole (d.domains.bound v kind) := by
    intro v hv kind
    have hall : ∀ v < 4, d.domains.isIntegral v = true →
        d.domains.bound v .lower = .fin 0 ∧ d.domains.bound v .upper = .fin 1 := by
      decide +kernel
    obtain ⟨hlb, hub⟩ := hall v (hrange v hv) hv
    cases kind with
    | lower => exact hlb ▸ Exact.whole_fin.mpr (by norm_num)
    | upper => exact hub ▸ Exact.whole_fin.mpr (by norm_num)
  have hg : mutualImplications.InRange d.domains.numVars := ⟨by decide +kernel, by decide +kernel⟩
  have hclosed : ClosedUnder mutualImplications d.domains := by decide +kernel
  have hv : 0 < d.domains.numVars := by decide +kernel
  have hbelow : (1 / 1000000 : ℚ) < 1 := by norm_num
  obtain ⟨hcompletes, -⟩ := tighten_completes hd rfl hbelow hapart hwhole hg hclosed .branching hv (.fin 1)
  have happlied : r.1 = .applied := by decide +kernel
  have hlb : r.2.domains.lb 1 = .fin 1 := by decide +kernel
  have hub : r.2.domains.ub 2 = .fin 0 := by decide +kernel
  have hfree : r.2.domains.ub 3 = .fin (1 / 2) := by decide +kernel
  exact ⟨happlied, hlb, hub, hfree, hcompletes .lower⟩

/-- **What the conditions are for.** Bounds that cross by less than the tolerance loosen, so that
what a fixing implies is not in force any more; with a tolerance of one a variable that is
fixed at 1 is asked to be at most −1 without being refused; and with a negative one a request
is refused that a point of the domain satisfies. Where numbers are rounded, a tolerance just
below one added to 1 gives 2, so that a variable that is at most 1 is asked to be at least 2.5
without being refused. -/
theorem tighten_incomplete :
    let bounded : ImplicationGraph (Exact ℚ) := { implications := #[((0, true), ⟨1, .lower, .fin (18 / 10 ^ 7)⟩)] }
    let crossing : Deduction (Exact ℚ) :=
      { domains := new #[.fin 1, .fin (9 / 10 ^ 7)] #[.fin 1, .fin 0] #[true, false] (.fin (1 / 10 ^ 6)) }
    let loosened := tighten bounded .branching crossing 1 .lower (.fin (99 / 10 ^ 8))
    let excluded : ImplicationGraph (Exact ℚ) := { implications := #[((0, true), ⟨1, .upper, .fin (-1)⟩)] }
    let coarse : Deduction (Exact ℚ) := { domains := new #[.fin 0, .fin 1] #[.fin 1, .fin 1] #[true, true] (.fin 1) }
    let accepted := tighten excluded .branching coarse 0 .lower (.fin 2)
    let strict : Deduction (Exact ℚ) := { domains := new #[.fin 0] #[.fin 5] #[false] (.fin (-1)) }
    let refused := tighten {} .branching strict 0 .lower (.fin (9 / 2))
    let demanding : ImplicationGraph Float := { implications := #[((0, true), ⟨1, .lower, 2.5⟩)] }
    let rounding : Deduction Float :=
      { domains := new #[0, 1] #[1, 1] #[true, true] 0.9999999999999999 }
    let rounded := tighten demanding .branching rounding 0 .lower 1
    (ClosedUnder bounded crossing.domains ∧ loosened.1 = .applied ∧ ¬ ClosedUnder bounded loosened.2.domains) ∧
      (ClosedUnder excluded coarse.domains ∧ accepted.1 = .applied ∧ ¬ ClosedUnder excluded accepted.2.domains) ∧
      (refused.1 = .infeasible ∧ strict.domains.lb 0 ≤ .fin 5 ∧ .fin 5 ≤ strict.domains.ub 0 ∧
        BoundKind.lower.Admits (.fin (9 / 2)) 5) ∧
      rounding.domains.tol < 1 ∧ rounding.domains.lb 0 < rounding.domains.ub 0 ∧ rounded.1 = .applied ∧
        1 ≤ rounded.2.domains.lb 0 ∧ rounded.2.domains.ub 1 < 2.5 := by
  intro bounded crossing loosened excluded coarse accepted strict refused demanding rounding rounded
  have hadmits : BoundKind.lower.Admits (.fin (9 / 2)) 5 := by
    change (Exact.fin (9 / 2 : ℚ)) ≤ .fin 5
    decide +kernel
  exact ⟨by decide +kernel, by decide +kernel, ⟨by decide +kernel, by decide +kernel, by decide +kernel, hadmits⟩,
    by decide +kernel⟩

end Deduction

end BranchAndCut

import BranchAndCut.Proofs.Domain.Nesting
import BranchAndCut.Proofs.Domain.Whole

/-! # Replaying recorded changes

A change that was applied is recorded with the bound that resulted, and requested again
whenever the node is entered later. For an integral variable the same bound results. A
change of another variable may have closed its domain up to a point: if it was open by less
than counts as a tightening, the second request does nothing. So a replay ends in the
recorded store, apart from variables that have collapsed to a point there and are still
open here; and since every later request for such a variable names that point, no replay
fails. -/

namespace BranchAndCut

namespace Exact

variable {F : Type} [Field F] [LinearOrder F] [FloorRing F] [Rooted F] {x y : Exact F}

theorem le_antisymm' (hxy : x ≤ y) (hyx : y ≤ x) : x = y := by
  cases x <;> cases y <;> first | rfl | exact hxy.elim | exact hyx.elim | exact congrArg fin (le_antisymm hxy hyx)

theorem le_total' (hx : x ≠ nan) (hy : y ≠ nan) : x ≤ y ∨ y ≤ x := by
  by_cases h : y < x
  · exact .inr (le_of_lt h)
  · exact .inl (le_of_not_lt hx hy h)

theorem min_eq_left' (h : x ≤ y) : Scalar.min x y = x := by
  have hx : Scalar.isNaN x = false := by
    cases x with
    | nan => exact h.elim
    | _ => rfl
  unfold Scalar.min
  rw [hx, if_neg Bool.false_ne_true, if_neg (not_lt_of_le h)]

theorem max_eq_left' (h : y ≤ x) : Scalar.max x y = x := by
  have hx : Scalar.isNaN x = false := by
    cases x with
    | nan => cases y <;> exact h.elim
    | _ => rfl
  unfold Scalar.max
  rw [hx, if_neg Bool.false_ne_true, if_neg (not_lt_of_le h)]

variable [IsStrictOrderedRing F]

theorem add_lt_of_lt_sub {a : F} (h : x < y - fin a) : x + fin a < y := by
  cases x <;> cases y <;> first | exact h.elim | trivial | skip
  rw [fin_sub, fin_lt] at h
  rw [fin_add, fin_lt]
  linarith

/-- Rounding inwards by less than one half leaves a whole number. -/
theorem ceil_sub_whole {t : Exact F} (hpos : 0 < t) (hhalf : t < 0.5) (hx : Scalar.Whole x) :
    Scalar.ceil (x - t) = x := by
  obtain ⟨ε, rfl, hε, hlt⟩ := exists_fin_of_tolerance hpos hhalf
  cases x with
  | fin a =>
    obtain ⟨z, rfl⟩ := exists_int_of_whole hx
    have hceil : ⌈(z : F) - ε⌉ = z := by
      rw [Int.ceil_eq_iff]
      constructor <;> linarith
    rw [fin_sub, ceil_fin, hceil]
  | _ => rfl

theorem floor_add_whole {t : Exact F} (hpos : 0 < t) (hhalf : t < 0.5) (hx : Scalar.Whole x) :
    Scalar.floor (x + t) = x := by
  obtain ⟨ε, rfl, hε, hlt⟩ := exists_fin_of_tolerance hpos hhalf
  cases x with
  | fin a =>
    obtain ⟨z, rfl⟩ := exists_int_of_whole hx
    have hfloor : ⌊(z : F) + ε⌋ = z := by
      rw [Int.floor_eq_iff]
      constructor <;> linarith
    rw [fin_add, floor_fin, hfloor]
  | _ => rfl

end Exact

namespace Domains

variable [Rooted ℚ] {t : Exact ℚ} {Z : VarId → Prop} {S D E : Domains (Exact ℚ)} {v : VarId}

/-! ## What a request comes to -/

/-- A value is between the bounds of a variable, whichever is the greater, and whole where it
has to be. -/
structure Spans (d : Domains (Exact ℚ)) (v : VarId) (a : Exact ℚ) : Prop where
  between : d.lb v ≤ a ∧ a ≤ d.ub v ∨ d.ub v ≤ a ∧ a ≤ d.lb v
  whole : d.isIntegral v = true → Scalar.Whole a

/-- Bounds are defined, no domain is empty, and those of integral variables are whole. -/
structure Sound (t : Exact ℚ) (Z : VarId → Prop) (d : Domains (Exact ℚ)) : Prop where
  rounded : d.Rounded t Z fun _ => False
  integral : ∀ v, d.isIntegral v = true → Z v
  defined : ∀ v, d.lb v ≠ .nan ∧ d.ub v ≠ .nan
  nonempty : ∀ v, ¬ d.ub v + t < d.lb v

theorem Sound.agree (h : Sound t Z D) (hagree : Agree D E) : Sound t Z E := by
  have hrounded := h.rounded.agree hagree
  rw [hagree.eq_with] at hrounded ⊢
  exact ⟨hrounded, h.integral, h.defined, h.nonempty⟩

theorem Sound.push (h : Sound t Z D) (node : NodeId) : Sound t Z (D.push node) :=
  ⟨h.rounded.push node, h.integral, h.defined, h.nonempty⟩

theorem Sound.spans_bound (h : Sound t Z D) (v : VarId) (kind : BoundKind) : D.Spans v (D.bound v kind) := by
  obtain ⟨hlb, hub⟩ := h.defined v
  cases kind with
  | lower =>
    exact ⟨(Exact.le_total' hlb hub).imp (⟨Exact.le_refl' hlb, ·⟩) (⟨·, Exact.le_refl' hlb⟩), fun hv =>
      (h.rounded.whole v (h.integral v hv)).wholeLower.2⟩
  | upper =>
    exact ⟨(Exact.le_total' hlb hub).imp (⟨·, Exact.le_refl' hub⟩) (⟨Exact.le_refl' hub, ·⟩), fun hv =>
      (h.rounded.whole v (h.integral v hv)).wholeUpper.1⟩

theorem Spans.defined {a : Exact ℚ} (h : D.Spans v a) : a ≠ .nan := by
  rcases h.between with h | h
  · exact (Exact.ne_nan_of_le h.1).2
  · exact (Exact.ne_nan_of_le h.1).2

/-- The bounds of an integral variable are in order, and a value between them is so. -/
theorem Sound.between (h : Sound t Z D) (hv : Z v) {a : Exact ℚ} (ha : D.Spans v a) : D.lb v ≤ a ∧ a ≤ D.ub v := by
  have hle := (h.rounded.whole v hv).between
  rcases ha.between with ha | ⟨hub, hlb⟩
  · exact ha
  · exact ⟨Exact.le_trans' hle hub, Exact.le_trans' hlb hle⟩

theorem judge_lower_applied {value new : Exact ℚ} : D.judge v .lower value = (.applied, new) ↔
    Scalar.isNaN value = false ∧ ¬ D.rounded v .lower value ≤ D.lb v + boundEps (D.lb v) ∧
      ¬ D.ub v + D.tol < D.rounded v .lower value ∧ Scalar.min (D.rounded v .lower value) (D.ub v) = new := by
  rw [judge_lower]
  split_ifs <;> simp_all

theorem judge_upper_applied {value new : Exact ℚ} : D.judge v .upper value = (.applied, new) ↔
    Scalar.isNaN value = false ∧ ¬ D.ub v - boundEps (D.ub v) ≤ D.rounded v .upper value ∧
      ¬ D.rounded v .upper value < D.lb v - D.tol ∧ Scalar.max (D.rounded v .upper value) (D.lb v) = new := by
  rw [judge_upper]
  split_ifs <;> simp_all

theorem le_add_boundEps {x : Exact ℚ} (hx : x ≠ .nan) (hinf : x ≠ .negInf) : x ≤ x + boundEps x := by
  cases x with
  | nan => exact (hx rfl).elim
  | negInf => exact (hinf rfl).elim
  | posInf =>
    rw [boundEps_of_infinite rfl]
    trivial
  | fin a =>
    obtain ⟨ε, hε, heps⟩ := boundEps_fin a
    rw [heps, Exact.fin_add, Exact.fin_le]
    linarith

theorem sub_boundEps_le {x : Exact ℚ} (hx : x ≠ .nan) (hinf : x ≠ .posInf) : x - boundEps x ≤ x := by
  cases x with
  | nan => exact (hx rfl).elim
  | posInf => exact (hinf rfl).elim
  | negInf =>
    rw [boundEps_of_infinite rfl]
    trivial
  | fin a =>
    obtain ⟨ε, hε, heps⟩ := boundEps_fin a
    rw [heps, Exact.fin_sub, Exact.fin_le]
    linarith

/-! ## Whole bounds -/

/-- What a store has, and what it has once the request is recorded, it has after the request. -/
theorem tighten_keeps {I : Domains (Exact ℚ) → Prop} {kind : BoundKind} {value : Exact ℚ} {reason : Reason}
    (hsame : I D) (hrecord : ∀ new, D.judge v kind value = (.applied, new) → I (D.record v kind new reason)) :
    I (D.tighten v kind value reason).2 := by
  unfold Domains.tighten
  cases hjudge : D.judge v kind value with
  | mk outcome new =>
    cases outcome with
    | applied => exact hrecord new hjudge
    | redundant => exact hsame
    | infeasible => exact hsame

theorem rounded_whole (hv : D.isIntegral v = true) (kind : BoundKind) (a : Exact ℚ) :
    Scalar.Whole (D.rounded v kind a) := by
  unfold Domains.rounded
  rw [if_pos hv]
  cases kind with
  | lower => exact Scalar.Rounds.whole_ceil _
  | upper => exact Scalar.Rounds.whole_floor _

/-- All bounds of integral variables are whole, in whatever order they are. -/
structure OnGrid (d : Domains (Exact ℚ)) : Prop where
  lower : ∀ v, d.isIntegral v = true → Scalar.Whole (d.globalLb v) ∧ Scalar.Whole (d.lb v)
  upper : ∀ v, d.isIntegral v = true → Scalar.Whole (d.globalUb v) ∧ Scalar.Whole (d.ub v)

/-- What is applied to an integral variable is whole. -/
theorem OnGrid.judge (h : OnGrid D) (hv : D.isIntegral v = true) {kind : BoundKind} {value new : Exact ℚ}
    (happlied : D.judge v kind value = (.applied, new)) : Scalar.Whole new := by
  have hrounded := rounded_whole hv kind value
  cases kind with
  | lower =>
    obtain ⟨-, -, -, rfl⟩ := judge_lower_applied.mp happlied
    exact hrounded.min (h.upper v hv).2
  | upper =>
    obtain ⟨-, -, -, rfl⟩ := judge_upper_applied.mp happlied
    exact hrounded.max (h.lower v hv).2

theorem OnGrid.record (h : OnGrid D) (kind : BoundKind) {value : Exact ℚ}
    (hvalue : D.isIntegral v = true → Scalar.Whole value) (reason : Reason) : OnGrid (D.record v kind value reason) := by
  have hintegral : ∀ w, (D.record v kind value reason).isIntegral w = D.isIntegral w := fun w => by
    unfold isIntegral
    rw [record_integral]
  refine ⟨fun w hw => ?_, fun w hw => ?_⟩
  · rw [hintegral] at hw
    obtain ⟨hglobal, hlocal⟩ := h.lower w hw
    rw [globalLb_record, lb_record]
    constructor
    · split
      · next hcase => exact hglobal.max (hvalue (hcase.2.2.1 ▸ hw))
      · exact hglobal
    · split
      · next hcase => exact hvalue (hcase.2.1 ▸ hw)
      · exact hlocal
  · rw [hintegral] at hw
    obtain ⟨hglobal, hlocal⟩ := h.upper w hw
    rw [globalUb_record, ub_record]
    constructor
    · split
      · next hcase => exact hglobal.min (hvalue (hcase.2.2.1 ▸ hw))
      · exact hglobal
    · split
      · next hcase => exact hvalue (hcase.2.1 ▸ hw)
      · exact hlocal

/-- **Whole bounds stay whole**, whatever is requested. -/
theorem OnGrid.tighten (h : OnGrid D) (v : VarId) (kind : BoundKind) (value : Exact ℚ) (reason : Reason) :
    OnGrid (D.tighten v kind value reason).2 :=
  tighten_keeps h fun _ happlied => h.record kind (fun hint => h.judge hint happlied) reason

theorem OnGrid.agree (h : OnGrid D) (hde : Agree D E) : OnGrid E := by
  rw [hde.eq_with]
  exact ⟨h.lower, h.upper⟩

variable (hpos : 0 < t) (hhalf : t < 0.5)

include hpos hhalf

/-- A whole value is judged as it is. -/
theorem Sound.rounded_eq (h : Sound t Z D) (kind : BoundKind) {a : Exact ℚ}
    (ha : D.isIntegral v = true → Scalar.Whole a) : D.rounded v kind a = a := by
  unfold Domains.rounded
  rw [h.rounded.tol]
  split
  · next hv =>
    cases kind with
    | lower => exact Exact.ceil_sub_whole hpos hhalf (ha hv)
    | upper => exact Exact.floor_add_whole hpos hhalf (ha hv)
  · rfl

theorem Sound.rounded_defined (h : Sound t Z D) (kind : BoundKind) {a : Exact ℚ} (ha : Scalar.isNaN a = false) :
    D.rounded v kind a ≠ .nan := by
  obtain ⟨ε, rfl, -⟩ := Exact.exists_fin_of_tolerance hpos hhalf
  refine rounded_ne_nan h.rounded.tol v kind ?_
  rw [ha]
  exact Bool.false_ne_true

/-- **What is applied** is between the bounds. -/
theorem Sound.judge_spans (h : Sound t Z D) {kind : BoundKind} {value new : Exact ℚ}
    (happlied : D.judge v kind value = (.applied, new)) : D.Spans v new := by
  obtain ⟨hlb, hub⟩ := h.defined v
  have hwhole : D.isIntegral v = true → Scalar.Whole new := fun hv =>
    (h.rounded.judge hpos hhalf (h.integral v hv) happlied).2
  cases kind with
  | lower =>
    obtain ⟨hdefined, hmoves, -, rfl⟩ := judge_lower_applied.mp happlied
    have hr := h.rounded_defined hpos hhalf (v := v) .lower hdefined
    rcases Scalar.min_cases (D.rounded v .lower value) (D.ub v) with heq | heq
    · rw [heq] at hwhole ⊢
      have hle : D.rounded v .lower value ≤ D.ub v := by
        rw [← heq]
        exact Exact.min_le_right' hub
      exact ⟨.inl ⟨le_of_not_le_add_boundEps hlb hr hmoves, hle⟩, hwhole⟩
    · rw [heq]
      exact h.spans_bound v .upper
  | upper =>
    obtain ⟨hdefined, hmoves, -, rfl⟩ := judge_upper_applied.mp happlied
    have hr := h.rounded_defined hpos hhalf (v := v) .upper hdefined
    rcases Scalar.max_cases (D.rounded v .upper value) (D.lb v) with heq | heq
    · rw [heq] at hwhole ⊢
      have hle : D.lb v ≤ D.rounded v .upper value := by
        rw [← heq]
        exact Exact.le_max_right' hlb
      exact ⟨.inl ⟨hle, le_of_not_sub_boundEps_le hub hr hmoves⟩, hwhole⟩
    · rw [heq]
      exact h.spans_bound v .lower

/-- A value between the bounds leaves no domain empty. -/
theorem Sound.spans_nonempty (h : Sound t Z D) {a : Exact ℚ} (ha : D.Spans v a) :
    ¬ D.ub v + t < a ∧ ¬ a + t < D.lb v := by
  have hnonneg := Exact.le_of_lt hpos
  obtain ⟨ε, rfl, -⟩ := Exact.exists_fin_of_tolerance hpos hhalf
  have hnonempty := h.nonempty v
  rcases ha.between with ⟨hlb, hub⟩ | ⟨hub, hlb⟩
  · exact ⟨Exact.not_add_lt_of_le hnonneg hub, Exact.not_add_lt_of_le hnonneg hlb⟩
  · refine ⟨fun hlt => hnonempty (Exact.lt_of_lt_of_le' hlt hlb), fun hlt => hnonempty ?_⟩
    exact Exact.add_lt_of_lt_sub (Exact.lt_of_le_of_lt' hub (Exact.lt_sub_of_add_lt hlt))

/-- A value between the bounds is never infeasible. -/
theorem Sound.judge_feasible (h : Sound t Z D) {a : Exact ℚ} (ha : D.Spans v a) (kind : BoundKind) :
    (D.judge v kind a).1 ≠ .infeasible := by
  obtain ⟨hupper, hlower⟩ := h.spans_nonempty hpos hhalf ha
  cases kind with
  | lower =>
    rw [judge_lower, h.rounded_eq hpos hhalf .lower ha.whole, h.rounded.tol, if_neg hupper]
    split_ifs <;> nofun
  | upper =>
    have hnot : ¬ a < D.lb v - t := fun hlt => hlower (by
      obtain ⟨ε, rfl, -⟩ := Exact.exists_fin_of_tolerance hpos hhalf
      exact Exact.add_lt_of_lt_sub hlt)
    rw [judge_upper, h.rounded_eq hpos hhalf .upper ha.whole, h.rounded.tol, if_neg hnot]
    split_ifs <;> nofun

/-- A value between the bounds is recorded as it is. -/
theorem Sound.judge_spanned (h : Sound t Z D) {a : Exact ℚ} (ha : D.Spans v a) {kind : BoundKind} {new : Exact ℚ}
    (happlied : D.judge v kind a = (.applied, new)) : new = a := by
  obtain ⟨hlb, hub⟩ := h.defined v
  cases kind with
  | lower =>
    obtain ⟨-, hmoves, -, rfl⟩ := judge_lower_applied.mp happlied
    rw [h.rounded_eq hpos hhalf .lower ha.whole] at hmoves ⊢
    have hge := le_of_not_le_add_boundEps hlb ha.defined hmoves
    refine Exact.min_eq_left' (ha.between.elim And.right fun ⟨_, hle⟩ => ?_)
    -- it is not below the lower bound either, which a request for it would not move
    have hinf : D.lb v = .negInf := by
      by_contra hne
      exact hmoves (Exact.le_trans' hle (le_add_boundEps hlb hne))
    rw [hinf] at hle
    exact Exact.le_trans' hle (Scalar.Ordered.negInf_le (by simpa [Bool.eq_false_iff, Exact.isNaN_iff] using hub))
  | upper =>
    obtain ⟨-, hmoves, -, rfl⟩ := judge_upper_applied.mp happlied
    rw [h.rounded_eq hpos hhalf .upper ha.whole] at hmoves ⊢
    refine Exact.max_eq_left' (ha.between.elim And.left fun ⟨hle, _⟩ => ?_)
    have hinf : D.ub v = .posInf := by
      by_contra hne
      exact hmoves (Exact.le_trans' (sub_boundEps_le hub hne) hle)
    rw [hinf] at hle
    exact Exact.le_trans' (Scalar.Ordered.le_inf (by simpa [Bool.eq_false_iff, Exact.isNaN_iff] using hlb)) hle

/-- **A recorded bound, requested again**, is recorded again, unless it has closed the domain
of a variable that is not integral. -/
theorem Sound.judge_again (h : Sound t Z D) {kind : BoundKind} {value new : Exact ℚ}
    (happlied : D.judge v kind value = (.applied, new)) : D.judge v kind new = (.applied, new) ∨
      D.isIntegral v = false ∧ (D.judge v kind new).1 = .redundant ∧ ∀ kind', kind' ≠ kind → D.bound v kind' = new := by
  have hspans := h.judge_spans hpos hhalf happlied
  have hnew := h.rounded_eq hpos hhalf kind hspans.whole
  have hnan : ∀ {a : Exact ℚ}, a ≠ .nan → Scalar.isNaN a = false := fun ha => by
    simpa [Bool.eq_false_iff, Exact.isNaN_iff] using ha
  have hdefined : Scalar.isNaN new = false := hnan hspans.defined
  have hwhole : D.isIntegral v = true → Scalar.Whole (D.lb v) ∧ Scalar.Whole (D.ub v) := fun hv =>
    ⟨(h.rounded.whole v (h.integral v hv)).wholeLower.2, (h.rounded.whole v (h.integral v hv)).wholeUpper.1⟩
  obtain ⟨hlb, hub⟩ := h.defined v
  cases kind with
  | lower =>
    obtain ⟨hvalue, hmoves, hfeasible, heq⟩ := judge_lower_applied.mp happlied
    by_cases hle : D.rounded v .lower value ≤ D.ub v
    · rw [Exact.min_eq_left' hle] at heq
      rw [heq] at hmoves hfeasible hle
      exact .inl (judge_lower_applied.mpr ⟨hdefined, by rwa [hnew], by rwa [hnew], by rw [hnew, Exact.min_eq_left' hle]⟩)
    · have hsame : Scalar.min (D.rounded v .lower value) (D.ub v) = D.ub v := by
        refine (Scalar.min_cases _ _).resolve_left fun heq' => hle ?_
        rw [← heq']
        exact Exact.min_le_right' hub
      obtain rfl : D.ub v = new := hsame.symm.trans heq
      have hcontinuous : D.isIntegral v = false := by
        refine Bool.eq_false_iff.mpr fun hv => hle ?_
        have hr := rounded_whole hv .lower value
        rw [h.rounded.tol] at hfeasible
        exact Scalar.Rounds.le_of_not_add_lt hr (hwhole hv).2 (hnan (h.rounded_defined hpos hhalf .lower hvalue)) hdefined
          hpos hhalf hfeasible
      by_cases hred : D.ub v ≤ D.lb v + boundEps (D.lb v)
      · refine .inr ⟨hcontinuous, ?_, fun kind' hne => ?_⟩
        · rw [judge_lower, hdefined, hnew, if_pos hred]
          rfl
        · cases kind' with
          | lower => exact absurd rfl hne
          | upper => rfl
      · refine .inl (judge_lower_applied.mpr ⟨hdefined, by rwa [hnew], ?_, ?_⟩)
        · rw [hnew, h.rounded.tol]
          exact Exact.not_add_lt_of_le (Exact.le_of_lt hpos) (Exact.le_refl' hub)
        · rw [hnew, Exact.min_eq_left' (Exact.le_refl' hub)]
  | upper =>
    obtain ⟨hvalue, hmoves, hfeasible, heq⟩ := judge_upper_applied.mp happlied
    by_cases hle : D.lb v ≤ D.rounded v .upper value
    · rw [Exact.max_eq_left' hle] at heq
      rw [heq] at hmoves hfeasible hle
      exact .inl (judge_upper_applied.mpr ⟨hdefined, by rwa [hnew], by rwa [hnew], by rw [hnew, Exact.max_eq_left' hle]⟩)
    · have hsame : Scalar.max (D.rounded v .upper value) (D.lb v) = D.lb v := by
        refine (Scalar.max_cases _ _).resolve_left fun heq' => hle ?_
        rw [← heq']
        exact Exact.le_max_right' hlb
      obtain rfl : D.lb v = new := hsame.symm.trans heq
      have hcontinuous : D.isIntegral v = false := by
        refine Bool.eq_false_iff.mpr fun hv => hle ?_
        have hr := rounded_whole hv .upper value
        rw [h.rounded.tol] at hfeasible
        refine Scalar.Rounds.le_of_not_add_lt (hwhole hv).1 hr hdefined (hnan (h.rounded_defined hpos hhalf .upper hvalue))
          hpos hhalf fun hlt => hfeasible ?_
        obtain ⟨ε, rfl, -⟩ := Exact.exists_fin_of_tolerance hpos hhalf
        exact Exact.lt_sub_of_add_lt hlt
      by_cases hred : D.ub v - boundEps (D.ub v) ≤ D.lb v
      · refine .inr ⟨hcontinuous, ?_, fun kind' hne => ?_⟩
        · rw [judge_upper, hdefined, hnew, if_pos hred]
          rfl
        · cases kind' with
          | lower => rfl
          | upper => exact absurd rfl hne
      · refine .inl (judge_upper_applied.mpr ⟨hdefined, by rwa [hnew], ?_, ?_⟩)
        · rw [hnew, h.rounded.tol]
          intro hlt
          obtain ⟨ε, rfl, -⟩ := Exact.exists_fin_of_tolerance hpos hhalf
          exact Exact.not_add_lt_of_le (Exact.le_of_lt hpos) (Exact.le_refl' hlb) (Exact.add_lt_of_lt_sub hlt)
        · rw [hnew, Exact.max_eq_left' (Exact.le_refl' hlb)]

/-! ## Requests and stores -/

theorem Sound.record (h : Sound t Z D) {kind : BoundKind} {a : Exact ℚ} (ha : D.Spans v a) (reason : Reason) :
    Sound t Z (D.record v kind a reason) := by
  obtain ⟨hupper, hlower⟩ := h.spans_nonempty hpos hhalf ha
  have hintegral : ∀ w, (D.record v kind a reason).isIntegral w = D.isIntegral w := fun w => by simp [isIntegral]
  refine ⟨h.rounded.record kind reason fun hv => ⟨h.between hv ha, ha.whole (h.rounded.integral v hv)⟩,
    fun w hw => h.integral w (hintegral w ▸ hw), fun w => ?_, fun w => ?_⟩
  · rw [lb_record, ub_record]
    obtain ⟨hlb, hub⟩ := h.defined w
    constructor <;> split_ifs <;> first | exact ha.defined | assumption
  · rw [lb_record, ub_record]
    have hnonempty := h.nonempty w
    split_ifs with hub hlb hlb
    · cases hub.1.symm.trans hlb.1
    · rwa [hub.2.1]
    · rwa [hlb.2.1]
    · exact hnonempty

/-- **Every request** keeps a store sound. -/
theorem Sound.tighten (h : Sound t Z D) (v : VarId) (kind : BoundKind) (value : Exact ℚ) (reason : Reason) :
    Sound t Z (D.tighten v kind value reason).2 :=
  tighten_keeps h fun _ happlied => h.record hpos hhalf (h.judge_spans hpos hhalf happlied) reason

/-- What requests leave as it is. -/
structure Shape where
  nodes : List NodeId
  tol : Exact ℚ
  integral : Array Bool
  lower : Nat
  upper : Nat

omit [Rooted ℚ] hpos hhalf in
def shape (d : Domains (Exact ℚ)) : Shape where
  nodes := d.frames.map Frame.node
  tol := d.tol
  integral := d.integral
  lower := d.lower.size
  upper := d.upper.size

omit hpos hhalf in
@[simp] theorem shape_record (D : Domains (Exact ℚ)) (v : VarId) (kind : BoundKind) (value : Exact ℚ) (reason : Reason) :
    (D.record v kind value reason).shape = D.shape := by
  unfold shape
  rw [record_nodes, record_tol, record_integral, record_lower, record_upper]
  split_ifs <;> simp

omit hpos hhalf in
@[simp] theorem shape_tighten (D : Domains (Exact ℚ)) (v : VarId) (kind : BoundKind) (value : Exact ℚ) (reason : Reason) :
    (D.tighten v kind value reason).2.shape = D.shape :=
  tighten_keeps (I := fun E => E.shape = D.shape) rfl fun new _ => D.shape_record v kind new reason

omit [Rooted ℚ] hpos hhalf in
theorem isIntegral_of_shape (h : E.shape = D.shape) (v : VarId) : E.isIntegral v = D.isIntegral v :=
  congrArg (fun x => x.integral.getD v false) h

omit hpos hhalf in
/-- A change touches the bounds of its variable only. -/
theorem record_other {w : VarId} (hw : w ≠ v) (kind : BoundKind) (value : Exact ℚ) (reason : Reason) :
    (D.record v kind value reason).lb w = D.lb w ∧ (D.record v kind value reason).ub w = D.ub w := by
  rw [lb_record, ub_record, if_neg fun h => hw h.2.1, if_neg fun h => hw h.2.1]
  exact ⟨rfl, rfl⟩

omit hpos hhalf in
/-- A request touches the bounds of its variable only. -/
theorem tighten_other {w : VarId} (hw : w ≠ v) (kind : BoundKind) (value : Exact ℚ) (reason : Reason) :
    (D.tighten v kind value reason).2.lb w = D.lb w ∧ (D.tighten v kind value reason).2.ub w = D.ub w := by
  exact tighten_keeps (I := fun E => E.lb w = D.lb w ∧ E.ub w = D.ub w) ⟨rfl, rfl⟩ fun new _ => record_other hw ..

/-! ## Variables that have collapsed -/

omit hpos hhalf in
theorem Spans.congr {a : Exact ℚ} (h : D.Spans v a) (hlb : E.lb v = D.lb v) (hub : E.ub v = D.ub v)
    (hintegral : E.isIntegral v = D.isIntegral v) : E.Spans v a := by
  refine ⟨?_, hintegral ▸ h.whole⟩
  rw [hlb, hub]
  exact h.between

omit hpos hhalf in
/-- One value is between equal bounds. -/
theorem Spans.eq_of_point {a : Exact ℚ} (h : D.Spans v a) (hpoint : D.lb v = D.ub v) : a = D.lb v := by
  have hbetween := h.between
  rw [← hpoint, or_self] at hbetween
  exact Exact.le_antisymm' hbetween.2 hbetween.1

omit hpos hhalf in
theorem judge_congr (hlb : E.lb v = D.lb v) (hub : E.ub v = D.ub v) (hintegral : E.isIntegral v = D.isIntegral v)
    (htol : E.tol = D.tol) (kind : BoundKind) (value : Exact ℚ) : E.judge v kind value = D.judge v kind value := by
  unfold Domains.judge
  rw [hlb, hub, hintegral, htol]

/-- The first store has collapsed a variable, which is not integral, to a point between the
bounds of the second. -/
structure CollapsedAt (S D : Domains (Exact ℚ)) (v : VarId) : Prop where
  continuous : S.isIntegral v = false
  point : S.lb v = S.ub v
  spans : D.Spans v (S.lb v)

/-- Stores at the same node that differ in variables that the first has collapsed. -/
structure Collapses (S D : Domains (Exact ℚ)) : Prop where
  shape : D.shape = S.shape
  at_var : ∀ v, D.lb v = S.lb v ∧ D.ub v = S.ub v ∨ S.CollapsedAt D v

namespace Collapses

omit hpos hhalf in
theorem isIntegral (h : Collapses S D) (v : VarId) : D.isIntegral v = S.isIntegral v := isIntegral_of_shape h.shape v

omit hpos hhalf in
theorem refl (S : Domains (Exact ℚ)) : Collapses S S := ⟨rfl, fun _ => .inl ⟨rfl, rfl⟩⟩

omit hpos hhalf in
theorem of_agree (h : Agree S D) : Collapses S D := by
  rw [h.eq_with]
  exact ⟨rfl, fun _ => .inl ⟨rfl, rfl⟩⟩

omit hpos hhalf in
theorem trans (h : Collapses S D) (h' : Collapses D E) : Collapses S E := by
  refine ⟨h'.shape.trans h.shape, fun v => ?_⟩
  rcases h.at_var v with ⟨hlb, hub⟩ | hat
  · rcases h'.at_var v with ⟨hlb', hub'⟩ | hat'
    · exact .inl ⟨hlb'.trans hlb, hub'.trans hub⟩
    · exact .inr ⟨h.isIntegral v ▸ hat'.continuous, by rw [← hlb, ← hub, hat'.point], hlb ▸ hat'.spans⟩
  · rcases h'.at_var v with ⟨hlb', hub'⟩ | hat'
    · exact .inr ⟨hat.continuous, hat.point, hat.spans.congr hlb' hub' (h'.isIntegral v)⟩
    · refine .inr ⟨hat.continuous, hat.point, ?_⟩
      rw [hat.spans.eq_of_point hat'.point]
      exact hat'.spans

omit hpos hhalf in
/-- Integral variables have the same bounds. -/
theorem same (h : Collapses S D) (hv : S.isIntegral v = true) : D.lb v = S.lb v ∧ D.ub v = S.ub v := by
  refine (h.at_var v).resolve_right fun hat => ?_
  have hcontinuous := hat.continuous
  rw [hv] at hcontinuous
  cases hcontinuous

omit hpos hhalf in
/-- What is between the bounds of the first is between those of the second. -/
theorem spans (h : Collapses S D) {a : Exact ℚ} (ha : S.Spans v a) : D.Spans v a := by
  rcases h.at_var v with ⟨hlb, hub⟩ | hat
  · exact ha.congr hlb hub (h.isIntegral v)
  · rw [ha.eq_of_point hat.point]
    exact hat.spans

omit hpos hhalf in
/-- Both stores record the same bound. -/
theorem record_same (h : Collapses S D) (hsame : D.lb v = S.lb v ∧ D.ub v = S.ub v) (kind : BoundKind)
    (a : Exact ℚ) (reason reason' : Reason) : (D.record v kind a reason).lb v = (S.record v kind a reason').lb v ∧
      (D.record v kind a reason).ub v = (S.record v kind a reason').ub v := by
  have hlower : D.lower.size = S.lower.size := congrArg Shape.lower h.shape
  have hupper : D.upper.size = S.upper.size := congrArg Shape.upper h.shape
  rw [lb_record, lb_record, ub_record, ub_record, hlower, hupper, hsame.1, hsame.2]
  exact ⟨rfl, rfl⟩

omit hpos hhalf in
/-- It is enough to look at the variable that a request names. -/
theorem update (h : Collapses S D) {S' D' : Domains (Exact ℚ)} (hS : S'.shape = S.shape) (hD : D'.shape = D.shape)
    (hother : ∀ w, w ≠ v → (S'.lb w = S.lb w ∧ S'.ub w = S.ub w) ∧ D'.lb w = D.lb w ∧ D'.ub w = D.ub w)
    (hat : D'.lb v = S'.lb v ∧ D'.ub v = S'.ub v ∨ S'.CollapsedAt D' v) : Collapses S' D' := by
  refine ⟨hD.trans (h.shape.trans hS.symm), fun w => ?_⟩
  by_cases hw : w = v
  · exact hw ▸ hat
  · obtain ⟨hsameS, hsameD⟩ := hother w hw
    rw [hsameS.1, hsameS.2, hsameD.1, hsameD.2]
    refine (h.at_var w).imp id fun hat => ⟨isIntegral_of_shape hS w ▸ hat.continuous, ?_, ?_⟩
    · rw [hsameS.1, hsameS.2, hat.point]
    · rw [hsameS.1]
      exact hat.spans.congr hsameD.1 hsameD.2 (isIntegral_of_shape hD w)

end Collapses

/-- What is requested is between the bounds afterwards. -/
theorem Sound.tighten_spans (h : Sound t Z D) {a : Exact ℚ} (ha : D.Spans v a) (kind : BoundKind) (reason : Reason) :
    (D.tighten v kind a reason).2.Spans v a := by
  refine tighten_keeps (I := fun E => E.Spans v a) ha fun new happlied => ?_
  obtain rfl := h.judge_spanned hpos hhalf ha happlied
  have hintegral := isIntegral_of_shape (D.shape_record v kind new reason) v
  have hlb := D.lb_record v kind new reason v
  have hub := D.ub_record v kind new reason v
  have hrecord : Sound t Z (D.record v kind new reason) := h.record hpos hhalf ha reason
  have hbound := hrecord.spans_bound v kind
  cases kind with
  | lower =>
    rw [if_neg fun hk => nomatch hk.1] at hub
    split_ifs at hlb
    · rwa [show (D.record v .lower new reason).bound v .lower = new from hlb] at hbound
    · exact ha.congr hlb hub hintegral
  | upper =>
    rw [if_neg fun hk => nomatch hk.1] at hlb
    split_ifs at hub
    · rwa [show (D.record v .upper new reason).bound v .upper = new from hub] at hbound
    · exact ha.congr hlb hub hintegral

omit hpos hhalf in
/-- A bound that meets the other one closes the domain to a point, if it is there at all. -/
theorem record_meets {kind : BoundKind} {a : Exact ℚ} (hmeets : ∀ kind', kind' ≠ kind → D.bound v kind' = a)
    (reason : Reason) : ((D.record v kind a reason).lb v = D.lb v ∧ (D.record v kind a reason).ub v = D.ub v) ∨
      (D.record v kind a reason).lb v = a ∧ (D.record v kind a reason).ub v = a := by
  have hlb := D.lb_record v kind a reason v
  have hub := D.ub_record v kind a reason v
  cases kind with
  | lower =>
    have hother : D.ub v = a := hmeets .upper nofun
    rw [if_neg fun hk => nomatch hk.1] at hub
    split_ifs at hlb
    · exact .inr ⟨hlb, hub.trans hother⟩
    · exact .inl ⟨hlb, hub⟩
  | upper =>
    have hother : D.lb v = a := hmeets .lower nofun
    rw [if_neg fun hk => nomatch hk.1] at hlb
    split_ifs at hub
    · exact .inr ⟨hlb.trans hother, hub⟩
    · exact .inl ⟨hlb, hub⟩

omit hpos hhalf in
/-- A collapsed variable stays where it is. -/
theorem record_point (hpoint : D.lb v = D.ub v) (kind : BoundKind) (reason : Reason) :
    (D.record v kind (D.lb v) reason).lb v = D.lb v ∧ (D.record v kind (D.lb v) reason).ub v = D.ub v := by
  rw [lb_record, ub_record]
  split_ifs <;> exact ⟨rfl, by first | rfl | exact hpoint⟩

omit hpos hhalf in
/-- Where the stores have the same bounds, they have the same bounds after a request. -/
theorem Collapses.tighten_same (h : Collapses S D) (hsame : D.lb v = S.lb v ∧ D.ub v = S.ub v) (kind : BoundKind)
    (a : Exact ℚ) (reason : Reason) : (D.tighten v kind a reason).2.lb v = (S.tighten v kind a reason).2.lb v ∧
      (D.tighten v kind a reason).2.ub v = (S.tighten v kind a reason).2.ub v := by
  unfold Domains.tighten
  rw [judge_congr hsame.1 hsame.2 (h.isIntegral v) (congrArg Shape.tol h.shape) kind a]
  cases S.judge v kind a with
  | mk outcome new =>
    cases outcome with
    | applied => exact h.record_same hsame kind new reason reason
    | _ => exact hsame

/-- A request for the point where a variable has collapsed changes nothing. -/
theorem Sound.tighten_point (h : Sound t Z D) (hpoint : D.lb v = D.ub v) (ha : D.Spans v (D.lb v)) (kind : BoundKind)
    (reason : Reason) : (D.tighten v kind (D.lb v) reason).2.lb v = D.lb v ∧
      (D.tighten v kind (D.lb v) reason).2.ub v = D.ub v := by
  refine tighten_keeps (I := fun E => E.lb v = D.lb v ∧ E.ub v = D.ub v) ⟨rfl, rfl⟩ fun new happlied => ?_
  rw [h.judge_spanned hpos hhalf ha happlied]
  exact record_point hpoint kind reason

/-- **A request for a value between the bounds** keeps what has collapsed. -/
theorem Collapses.tighten (h : Collapses S D) (hS : Sound t Z S) (hD : Sound t Z D) {a : Exact ℚ}
    (ha : S.Spans v a) (kind : BoundKind) (reason : Reason) :
    Collapses (S.tighten v kind a reason).2 (D.tighten v kind a reason).2 := by
  refine h.update (shape_tighten ..) (shape_tighten ..)
    (fun w hw => ⟨tighten_other hw .., tighten_other hw ..⟩) ?_
  rcases h.at_var v with hsame | hat
  · exact .inl (h.tighten_same hsame kind a reason)
  · obtain rfl := ha.eq_of_point hat.point
    have hstays := hS.tighten_point hpos hhalf hat.point ha kind reason
    refine .inr ⟨(isIntegral_of_shape (shape_tighten ..) v).trans hat.continuous, ?_, ?_⟩
    · rw [hstays.1, hstays.2, hat.point]
    · rw [hstays.1]
      exact hD.tighten_spans hpos hhalf hat.spans kind reason

/-- **A bound that the first store records**, requested of the second, at most collapses a
variable of the first. -/
theorem Collapses.record (h : Collapses S D) (hS : Sound t Z S) (hD : Sound t Z D) {kind : BoundKind}
    {value new : Exact ℚ} (happlied : S.judge v kind value = (.applied, new)) (reason : Reason) :
    Collapses (S.record v kind new reason) (D.tighten v kind new reason).2 := by
  have hnew := hS.judge_spans hpos hhalf happlied
  refine h.update (shape_record ..) (shape_tighten ..) (fun w hw => ⟨record_other hw .., tighten_other hw ..⟩) ?_
  have hintegral := isIntegral_of_shape (S.shape_record v kind new reason) v
  rcases h.at_var v with hsame | hat
  · have hjudge := judge_congr hsame.1 hsame.2 (h.isIntegral v) (congrArg Shape.tol h.shape) kind new
    unfold Domains.tighten
    rw [hjudge]
    rcases hS.judge_again hpos hhalf happlied with hagain | ⟨hcontinuous, hredundant, hmeets⟩
    · rw [hagain]
      exact .inl (h.record_same hsame kind new reason reason)
    · generalize S.judge v kind new = judged at hredundant
      obtain ⟨outcome, value'⟩ := judged
      obtain rfl : outcome = .redundant := hredundant
      rcases record_meets hmeets reason with hold | hpoint
      · exact .inl (by rw [hold.1, hold.2]; exact hsame)
      · refine .inr ⟨hintegral.trans hcontinuous, hpoint.1.trans hpoint.2.symm, ?_⟩
        rw [hpoint.1]
        exact h.spans hnew
  · obtain rfl := hnew.eq_of_point hat.point
    obtain ⟨hlb, hub⟩ := record_point hat.point kind reason
    refine .inr ⟨hintegral.trans hat.continuous, ?_, ?_⟩
    · rw [hlb, hub, hat.point]
    · rw [hlb]
      exact hD.tighten_spans hpos hhalf hat.spans kind reason

/-! ## Lists of changes -/

/-- Each change of a list, in its turn, is between the bounds. -/
def Calm : Domains (Exact ℚ) → List (BoundChange (Exact ℚ)) → Prop
  | _, [] => True
  | d, c :: cs => d.Spans c.var c.new ∧ Calm (d.tighten c.var c.kind c.new c.reason).2 cs

variable {cs : List (BoundChange (Exact ℚ))} {c : BoundChange (Exact ℚ)}

omit hpos hhalf in
@[simp] theorem calm_nil (D : Domains (Exact ℚ)) : D.Calm [] := trivial

omit hpos hhalf in
@[simp] theorem replay_nil (D : Domains (Exact ℚ)) : D.replay [] = (true, D) := rfl

theorem Sound.replay_cons (h : Sound t Z D) (hc : D.Spans c.var c.new) :
    D.replay (c :: cs) = (D.tighten c.var c.kind c.new c.reason).2.replay cs := by
  have hfeasible := h.judge_feasible hpos hhalf hc c.kind
  rw [Domains.replay]
  unfold Domains.tighten
  generalize D.judge c.var c.kind c.new = judged at hfeasible ⊢
  obtain ⟨outcome, value⟩ := judged
  cases outcome with
  | infeasible => exact absurd rfl hfeasible
  | _ => rfl

theorem Sound.replay (h : Sound t Z D) (cs : List (BoundChange (Exact ℚ))) : Sound t Z (D.replay cs).2 :=
  replay_keeps (fun c _ _ he => he.tighten hpos hhalf c.var c.kind c.new c.reason) h

/-- **A replay of changes between the bounds succeeds.** -/
theorem Sound.replay_feasible (h : Sound t Z D) (hcs : D.Calm cs) : (D.replay cs).1 = true := by
  induction cs generalizing D with
  | nil => rfl
  | cons c cs ih =>
    rw [h.replay_cons hpos hhalf hcs.1]
    exact ih (h.tighten hpos hhalf ..) hcs.2

theorem Sound.replay_append (h : Sound t Z D) (hcs : D.Calm cs) (cs' : List (BoundChange (Exact ℚ))) :
    (D.Calm (cs ++ cs') ↔ (D.replay cs).2.Calm cs') ∧ (D.replay (cs ++ cs')).2 = ((D.replay cs).2.replay cs').2 := by
  induction cs generalizing D with
  | nil => exact ⟨Iff.rfl, rfl⟩
  | cons c cs ih =>
    obtain ⟨hcalm, hreplay⟩ := ih (h.tighten hpos hhalf c.var c.kind c.new c.reason) hcs.2
    rw [List.cons_append, h.replay_cons hpos hhalf hcs.1, h.replay_cons hpos hhalf hcs.1]
    exact ⟨(and_iff_right hcs.1).trans hcalm, hreplay⟩

/-- **A replay that is calm where variables have collapsed** is calm where they have not. -/
theorem Collapses.replay (h : Collapses S D) (hS : Sound t Z S) (hD : Sound t Z D) (hcs : S.Calm cs) :
    D.Calm cs ∧ Collapses (S.replay cs).2 (D.replay cs).2 := by
  induction cs generalizing S D with
  | nil => exact ⟨trivial, h⟩
  | cons c cs ih =>
    have hspans := h.spans hcs.1
    obtain ⟨hcalm, hcollapses⟩ := ih (h.tighten hpos hhalf hS hD hcs.1 c.kind c.reason)
      (hS.tighten hpos hhalf ..) (hD.tighten hpos hhalf ..) hcs.2
    rw [hS.replay_cons hpos hhalf hcs.1, hD.replay_cons hpos hhalf hspans]
    exact ⟨⟨hspans, hcalm⟩, hcollapses⟩

end Domains

end BranchAndCut

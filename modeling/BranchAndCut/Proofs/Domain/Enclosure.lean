import BranchAndCut.Proofs.Domain.Restore
import BranchAndCut.Proofs.Point

/-! # Tightening keeps the points that satisfy the bound

A request for a bound that some points satisfy never empties the domain of one of
them and never cuts one off: the bound is rounded inwards only where points are
integral, and stops at the opposite bound, which the points satisfy as well. Runs
of such requests are what propagation and replay come to. -/

namespace BranchAndCut.Domains

variable [Rooted ℚ] {d e : Domains (Exact ℚ)} {p : Point} {P : Set Point} {v : VarId}

/-- The point is in the local domain and integral where it has to be. -/
structure Encloses (d : Domains (Exact ℚ)) (p : Point) : Prop where
  lower : ∀ v, d.lb v ≤ .fin (p.coord v)
  upper : ∀ v, .fin (p.coord v) ≤ d.ub v
  integral : ∀ v, d.isIntegral v = true → p.IsInt v

/-- Enclosure by checking the variables that there are. -/
theorem encloses_of_lt (hsize : p.size ≤ d.lower.size) (hupper : d.upper.size = d.lower.size)
    (hbounds : ∀ v < d.lower.size, d.lb v ≤ .fin (p.coord v) ∧ .fin (p.coord v) ≤ d.ub v)
    (hint : ∀ v < p.size, d.isIntegral v = true → (p.coord v).den = 1) : d.Encloses p := by
  have hzero : ∀ v, ¬ v < p.size → p.coord v = 0 := fun v hv => by simp [Point.coord, hv]
  have hvoid : ∀ v, ¬ v < d.lower.size → d.lb v = 0 ∧ d.ub v = 0 := fun v hv => by
    simp [lb, ub, hv, hupper]
  have hall : ∀ v, d.lb v ≤ .fin (p.coord v) ∧ .fin (p.coord v) ≤ d.ub v := by
    intro v
    by_cases hv : v < d.lower.size
    · exact hbounds v hv
    · rw [hzero v fun h => hv (Nat.lt_of_lt_of_le h hsize), (hvoid v hv).1, (hvoid v hv).2, Exact.zero_def, Exact.fin_le]
      exact ⟨le_refl _, le_refl _⟩
  refine ⟨fun v => (hall v).1, fun v => (hall v).2, fun v hv => ?_⟩
  by_cases hlt : v < p.size
  · exact ⟨(p.coord v).num, (Rat.den_eq_one_iff _).mp (hint v hlt hv) |>.symm⟩
  · exact ⟨0, by rw [hzero v hlt, Int.cast_zero]⟩

/-- The value of a variable is in its global domain. -/
def EnclosesGlobally (d : Domains (Exact ℚ)) (p : Point) (v : VarId) : Prop :=
  d.globalLb v ≤ .fin (p.coord v) ∧ .fin (p.coord v) ≤ d.globalUb v

/-! ## One request -/

/-- The value that a request is judged by: rounded inwards if the variable is integral. -/
def rounded (d : Domains (Exact ℚ)) (v : VarId) (kind : BoundKind) (value : Exact ℚ) : Exact ℚ :=
  if d.isIntegral v then
    match kind with
    | .lower => Scalar.ceil (value - d.tol)
    | .upper => Scalar.floor (value + d.tol)
  else value

/-- A value that the variable may have: it is in the local domain, and whole if it has to be. -/
structure Takes (d : Domains (Exact ℚ)) (v : VarId) (q : ℚ) : Prop where
  lower : d.lb v ≤ .fin q
  upper : .fin q ≤ d.ub v
  integral : d.isIntegral v = true → ∃ z : ℤ, q = z

theorem Encloses.takes (hp : d.Encloses p) (v : VarId) : d.Takes v (p.coord v) :=
  ⟨hp.lower v, hp.upper v, hp.integral v⟩

theorem rounded_admits {q : ℚ} (hint : d.isIntegral v = true → ∃ z : ℤ, q = z) (htol : 0 ≤ d.tol)
    {kind : BoundKind} {value : Exact ℚ} (h : kind.Admits value q) :
    kind.Admits (d.rounded v kind value) q := by
  unfold rounded
  split
  · next hv =>
    obtain ⟨z, rfl⟩ := hint hv
    cases kind with
    | lower => exact Exact.ceil_le_intCast (Exact.sub_le_fin htol h)
    | upper => exact Exact.intCast_le_floor (Exact.fin_le_add htol h)
  · exact h

theorem judge_lower (v : VarId) (value : Exact ℚ) :
    d.judge v .lower value =
      if Scalar.isNaN value then (.redundant, value)
      else if d.rounded v .lower value ≤ d.lb v + boundEps (d.lb v) then
        (.redundant, d.rounded v .lower value)
      else if d.ub v + d.tol < d.rounded v .lower value then
        (.infeasible, d.rounded v .lower value)
      else (.applied, Scalar.min (d.rounded v .lower value) (d.ub v)) := rfl

theorem judge_upper (v : VarId) (value : Exact ℚ) :
    d.judge v .upper value =
      if Scalar.isNaN value then (.redundant, value)
      else if d.ub v - boundEps (d.ub v) ≤ d.rounded v .upper value then
        (.redundant, d.rounded v .upper value)
      else if d.rounded v .upper value < d.lb v - d.tol then
        (.infeasible, d.rounded v .upper value)
      else (.applied, Scalar.max (d.rounded v .upper value) (d.lb v)) := rfl

/-- **A bound that a value satisfies is not infeasible**, and what is applied is
a bound that the value satisfies. -/
theorem judge_admits {q : ℚ} (hq : d.Takes v q) (htol : 0 ≤ d.tol) {kind : BoundKind}
    {value : Exact ℚ} (h : kind.Admits value q) :
    (d.judge v kind value).1 ≠ .infeasible ∧
      ((d.judge v kind value).1 = .applied → kind.Admits (d.judge v kind value).2 q) := by
  have hr := rounded_admits hq.integral htol h
  cases kind with
  | lower =>
    have hside : ¬ d.ub v + d.tol < d.rounded v .lower value :=
      Exact.not_lt_of_le (Exact.le_trans' hr (Exact.fin_le_add htol hq.upper))
    rw [judge_lower, if_neg hside]
    split_ifs
    · simp
    · simp
    · exact ⟨nofun, fun _ => Exact.min_le_of_le hr⟩
  | upper =>
    have hside : ¬ d.rounded v .upper value < d.lb v - d.tol :=
      Exact.not_lt_of_le (Exact.le_trans' (Exact.sub_le_fin htol hq.lower) hr)
    rw [judge_upper, if_neg hside]
    split_ifs
    · simp
    · simp
    · exact ⟨nofun, fun _ => Exact.le_max_of_le hr⟩

/-! ## Recording a bound -/

theorem bound_record (v w : VarId) (kind k : BoundKind) (value : Exact ℚ) (reason : Reason) :
    (d.record v kind value reason).bound w k = d.bound w k ∨
      w = v ∧ k = kind ∧ (d.record v kind value reason).bound w k = value := by
  cases k with
  | lower =>
    simp only [bound, lb_record]
    split_ifs with h
    · exact .inr ⟨h.2.1, h.1.symm, rfl⟩
    · exact .inl rfl
  | upper =>
    simp only [bound, ub_record]
    split_ifs with h
    · exact .inr ⟨h.2.1, h.1.symm, rfl⟩
    · exact .inl rfl

theorem Encloses.within (hp : d.Encloses p) (v : VarId) (kind : BoundKind) :
    kind.Admits (d.bound v kind) (p.coord v) := by
  cases kind with
  | lower => exact hp.lower v
  | upper => exact hp.upper v

theorem Encloses.record (hp : d.Encloses p) {kind : BoundKind} {value : Exact ℚ}
    (h : kind.Admits value (p.coord v)) (reason : Reason) :
    (d.record v kind value reason).Encloses p := by
  have hwithin : ∀ (w : VarId) (k : BoundKind), k.Admits ((d.record v kind value reason).bound w k) (p.coord w) := by
    intro w k
    rcases bound_record (d := d) v w kind k value reason with hsame | ⟨rfl, rfl, hnew⟩
    · rw [hsame]
      exact hp.within w k
    · rw [hnew]
      exact h
  refine ⟨fun w => hwithin w .lower, fun w => hwithin w .upper, fun w hw => hp.integral w ?_⟩
  simpa [isIntegral] using hw

theorem EnclosesGlobally.record {w : VarId} (hp : d.EnclosesGlobally p w) {kind : BoundKind}
    {value : Exact ℚ} (h : kind.Admits value (p.coord v)) (reason : Reason) :
    (d.record v kind value reason).EnclosesGlobally p w := by
  unfold EnclosesGlobally
  rw [globalLb_record, globalUb_record]
  constructor
  · split_ifs with hnew
    · obtain ⟨rfl, -, rfl, -⟩ := hnew
      exact Exact.max_le' hp.1 h
    · exact hp.1
  · split_ifs with hnew
    · obtain ⟨rfl, -, rfl, -⟩ := hnew
      exact Exact.le_min' hp.2 h
    · exact hp.2

/-- What holds of a store and of the recording of a bound that a point satisfies
holds after a request for such a bound. -/
theorem tighten_of_admits {I : Domains (Exact ℚ) → Prop} (hp : d.Encloses p) (htol : 0 ≤ d.tol)
    {kind : BoundKind} {value : Exact ℚ} (h : kind.Admits value (p.coord v)) (reason : Reason)
    (hsame : I d)
    (hrecord : ∀ value', kind.Admits value' (p.coord v) → I (d.record v kind value' reason)) :
    I (d.tighten v kind value reason).2 := by
  obtain ⟨-, hvalue⟩ := judge_admits (hp.takes v) htol h
  unfold Domains.tighten
  cases hj : d.judge v kind value with
  | mk outcome value' =>
    rw [hj] at hvalue
    cases outcome with
    | applied => exact hrecord value' (hvalue rfl)
    | redundant => exact hsame
    | infeasible => exact hsame

theorem Encloses.tighten (hp : d.Encloses p) (htol : 0 ≤ d.tol) {kind : BoundKind}
    {value : Exact ℚ} (h : kind.Admits value (p.coord v)) (reason : Reason) :
    (d.tighten v kind value reason).2.Encloses p :=
  tighten_of_admits (I := fun e => e.Encloses p) hp htol h reason hp
    fun _ h' => hp.record h' reason

theorem EnclosesGlobally.tighten {w : VarId} (hg : d.EnclosesGlobally p w) (hp : d.Encloses p)
    (htol : 0 ≤ d.tol) {kind : BoundKind} {value : Exact ℚ}
    (h : kind.Admits value (p.coord v)) (reason : Reason) :
    (d.tighten v kind value reason).2.EnclosesGlobally p w :=
  tighten_of_admits (I := fun e => e.EnclosesGlobally p w) hp htol h reason hg
    fun _ h' => hg.record h' reason

theorem tighten_ne_infeasible (hp : d.Encloses p) (htol : 0 ≤ d.tol) {kind : BoundKind}
    {value : Exact ℚ} (h : kind.Admits value (p.coord v)) (reason : Reason) :
    (d.tighten v kind value reason).1 ≠ .infeasible := by
  obtain ⟨hne, -⟩ := judge_admits (hp.takes v) htol h
  unfold Domains.tighten
  cases hj : d.judge v kind value with
  | mk outcome value' =>
    rw [hj] at hne
    cases outcome with
    | applied => exact nofun
    | redundant => exact nofun
    | infeasible => exact (hne rfl).elim

theorem tighten_tol (v : VarId) (kind : BoundKind) (value : Exact ℚ) (reason : Reason) :
    (d.tighten v kind value reason).2.tol = d.tol := by
  unfold Domains.tighten
  rcases d.judge v kind value with ⟨outcome, value'⟩
  cases outcome <;> simp

theorem tighten_isIntegral (v w : VarId) (kind : BoundKind) (value : Exact ℚ) (reason : Reason) :
    (d.tighten v kind value reason).2.isIntegral w = d.isIntegral w := by
  unfold Domains.tighten isIntegral
  rcases d.judge v kind value with ⟨outcome, value'⟩
  cases outcome <;> simp

/-! ## Bounds only move inwards -/

/-- The least movement of a finite bound that counts as a tightening. -/
def slack (a : ℚ) : ℚ := 1e-9 * max |a| 1

omit [Rooted ℚ] in
theorem slack_pos (a : ℚ) : 0 < slack a := by
  unfold slack
  positivity

omit [Rooted ℚ] in
/-- The slack changes by less than the bound does. -/
theorem abs_slack_sub_le (a b : ℚ) : |slack a - slack b| ≤ |a - b| := by
  have hmax := abs_max_sub_max_le_abs |a| |b| 1
  have habs := abs_abs_sub_abs_le a b
  have hnonneg := abs_nonneg (max |a| 1 - max |b| 1)
  unfold slack
  rw [← mul_sub, abs_mul, abs_of_pos (by norm_num)]
  linarith

omit [Rooted ℚ] in
theorem slack_lt_one {a : ℚ} (h : |a| < 10 ^ 9) : slack a < 1 := by
  have hmax : max |a| 1 < 10 ^ 9 := max_lt h (by norm_num)
  unfold slack
  linarith

theorem boundEps_slack (a : ℚ) : boundEps (Exact.fin a) = .fin (slack a) := by
  rw [boundEps, Exact.abs_fin, Exact.one_def, Exact.max_fin, Exact.scientific_def, Exact.fin_mul]
  rfl

theorem boundEps_fin (a : ℚ) : ∃ ε : ℚ, 0 < ε ∧ boundEps (Exact.fin a) = .fin ε :=
  ⟨slack a, slack_pos a, boundEps_slack a⟩

theorem boundEps_of_infinite {x : Exact ℚ} (hx : Scalar.abs x = .posInf) :
    boundEps x = .posInf := by
  have hmax : Scalar.max (Exact.posInf : Exact ℚ) 1 = .posInf := by
    rw [Exact.one_def]
    exact (if_neg (by simp [Scalar.isNaN])).trans (if_neg (Exact.not_lt_of_le (x := .fin 1) (y := .posInf) trivial))
  rw [boundEps, hx, hmax, Exact.scientific_def]
  exact Exact.fin_mul_posInf (by norm_num)

theorem le_of_not_le_add_boundEps {l x : Exact ℚ} (hl : l ≠ .nan) (hx : x ≠ .nan)
    (h : ¬ x ≤ l + boundEps l) : l ≤ x := by
  cases l with
  | nan => exact (hl rfl).elim
  | posInf =>
    rw [boundEps_of_infinite rfl] at h
    cases x <;> first | exact (hx rfl).elim | exact (h trivial).elim
  | negInf => cases x <;> first | exact (hx rfl).elim | trivial
  | fin l =>
    obtain ⟨ε, hε, heps⟩ := boundEps_fin l
    rw [heps] at h
    cases x with
    | nan => exact (hx rfl).elim
    | posInf => trivial
    | negInf => exact (h trivial).elim
    | fin x =>
      rw [Exact.fin_add, Exact.fin_le] at h
      rw [Exact.fin_le]
      linarith

theorem le_of_not_sub_boundEps_le {u x : Exact ℚ} (hu : u ≠ .nan) (hx : x ≠ .nan)
    (h : ¬ u - boundEps u ≤ x) : x ≤ u := by
  cases u with
  | nan => exact (hu rfl).elim
  | posInf => cases x <;> first | exact (hx rfl).elim | trivial
  | negInf =>
    rw [boundEps_of_infinite rfl] at h
    cases x <;> first | exact (hx rfl).elim | exact (h trivial).elim
  | fin u =>
    obtain ⟨ε, hε, heps⟩ := boundEps_fin u
    rw [heps] at h
    cases x with
    | nan => exact (hx rfl).elim
    | negInf => trivial
    | posInf => exact (h trivial).elim
    | fin x =>
      rw [Exact.fin_sub, Exact.fin_le] at h
      rw [Exact.fin_le]
      linarith

/-- An applied value lies between the bounds, if they are in order. -/
theorem judge_between (hle : d.lb v ≤ d.ub v) {kind : BoundKind} {value : Exact ℚ}
    (happlied : (d.judge v kind value).1 = .applied) :
    d.lb v ≤ (d.judge v kind value).2 ∧ (d.judge v kind value).2 ≤ d.ub v := by
  obtain ⟨hlb, hub⟩ := Exact.ne_nan_of_le hle
  cases kind with
  | lower =>
    rw [judge_lower] at happlied ⊢
    split_ifs at happlied ⊢ with hnan hred hinf
    by_cases hr : d.rounded v .lower value = .nan
    · rw [hr]
      exact ⟨hle, Exact.le_refl' hub⟩
    · refine ⟨Exact.le_min' (le_of_not_le_add_boundEps hlb hr hred) hle, ?_⟩
      exact Exact.min_le_right' hub
  | upper =>
    rw [judge_upper] at happlied ⊢
    split_ifs at happlied ⊢ with hnan hred hinf
    by_cases hr : d.rounded v .upper value = .nan
    · rw [hr]
      exact ⟨Exact.le_refl' hlb, hle⟩
    · refine ⟨?_, Exact.max_le' (le_of_not_sub_boundEps_le hub hr hred) hle⟩
      exact Exact.le_max_right' hlb

theorem Encloses.lb_le_ub (hp : d.Encloses p) (v : VarId) : d.lb v ≤ d.ub v :=
  Exact.le_trans' (hp.lower v) (hp.upper v)

theorem inward_refl (hp : d.Encloses p) (v : VarId) (kind : BoundKind) :
    kind.Inward (d.bound v kind) (d.bound v kind) := by
  cases kind with
  | lower => exact .refl (Exact.ne_nan_of_le (hp.lower v)).1
  | upper => exact .refl (Exact.ne_nan_of_le (hp.upper v)).2

theorem tighten_inward (hp : d.Encloses p) (v w : VarId) (kind k : BoundKind)
    (value : Exact ℚ) (reason : Reason) :
    k.Inward (d.bound w k) ((d.tighten v kind value reason).2.bound w k) := by
  have hbetween : (d.judge v kind value).1 = .applied →
      d.lb v ≤ (d.judge v kind value).2 ∧ (d.judge v kind value).2 ≤ d.ub v :=
    judge_between (hp.lb_le_ub v)
  unfold Domains.tighten
  cases hj : d.judge v kind value with
  | mk outcome value' =>
    rw [hj] at hbetween
    cases outcome with
    | applied =>
      rcases bound_record (d := d) v w kind k value' reason with hsame | ⟨rfl, rfl, hnew⟩
      · simpa only [hsame] using inward_refl hp w k
      · rw [hnew]
        cases k with
        | lower => exact (hbetween rfl).1
        | upper => exact (hbetween rfl).2
    | redundant => exact inward_refl hp w k
    | infeasible => exact inward_refl hp w k

/-! ## Runs of requests -/

theorem Encloses.agree (hp : d.Encloses p) (h : Agree d e) : e.Encloses p := by
  rw [h.eq_with]
  exact ⟨hp.lower, hp.upper, hp.integral⟩

theorem EnclosesGlobally.agree (hp : d.EnclosesGlobally p v) (h : Agree d e) :
    e.EnclosesGlobally p v := by
  rw [h.eq_with]
  exact hp

/-- Requests, one after another, for bounds that all points of a set satisfy. In
between pending changes may be taken. -/
inductive Tightens (P : Set Point) (d : Domains (Exact ℚ)) : Domains (Exact ℚ) → Prop
  | refl : Tightens P d d
  | request {e : Domains (Exact ℚ)} {v : VarId} {kind : BoundKind} {value : Exact ℚ}
      (reason : Reason) (h : Tightens P d e) (hvalue : ∀ p ∈ P, kind.Admits value (p.coord v)) :
      Tightens P d (e.tighten v kind value reason).2
  | agree {e e' : Domains (Exact ℚ)} (h : Tightens P d e) (hagree : Agree e e') : Tightens P d e'

namespace Tightens

theorem trans {f : Domains (Exact ℚ)} (h : Tightens P d e) (h' : Tightens P e f) :
    Tightens P d f := by
  induction h' with
  | refl => exact h
  | request reason _ hvalue ih => exact ih.request reason hvalue
  | agree _ hagree ih => exact ih.agree hagree

theorem tol (h : Tightens P d e) : e.tol = d.tol := by
  induction h with
  | refl => rfl
  | request reason _ _ ih => rw [tighten_tol, ih]
  | agree _ hagree ih => rw [hagree.eq_with, ← ih]

theorem isIntegral (h : Tightens P d e) (v : VarId) : e.isIntegral v = d.isIntegral v := by
  induction h with
  | refl => rfl
  | request reason _ _ ih => rw [tighten_isIntegral, ih]
  | agree _ hagree ih => rw [hagree.eq_with, ← ih]; rfl

theorem encloses (h : Tightens P d e) (htol : 0 ≤ d.tol) (hp : p ∈ P) (hd : d.Encloses p) :
    e.Encloses p := by
  induction h with
  | refl => exact hd
  | request reason h hvalue ih => exact ih.tighten (h.tol ▸ htol) (hvalue p hp) reason
  | agree _ hagree ih => exact ih.agree hagree

theorem enclosesGlobally (h : Tightens P d e) (htol : 0 ≤ d.tol) (hp : p ∈ P)
    (hd : d.Encloses p) (hg : d.EnclosesGlobally p v) : e.EnclosesGlobally p v := by
  induction h with
  | refl => exact hg
  | request reason h hvalue ih =>
    exact ih.tighten (h.encloses htol hp hd) (h.tol ▸ htol) (hvalue p hp) reason
  | agree _ hagree ih => exact ih.agree hagree

theorem inward (h : Tightens P d e) (htol : 0 ≤ d.tol) (hp : p ∈ P) (hd : d.Encloses p)
    (w : VarId) (k : BoundKind) : k.Inward (d.bound w k) (e.bound w k) := by
  induction h with
  | refl => exact inward_refl hd w k
  | request reason h hvalue ih =>
    exact ih.trans (tighten_inward (h.encloses htol hp hd) _ w _ k _ reason)
  | agree _ hagree ih =>
    rw [hagree.eq_with]
    exact ih

theorem nodes (h : Tightens P d e) : e.frames.map Frame.node = d.frames.map Frame.node := by
  induction h with
  | refl => rfl
  | request reason _ _ ih => rw [tighten_nodes, ih]
  | agree _ hagree ih => rw [← hagree.frames, ih]

theorem frames_length (h : Tightens P d e) : e.frames.length = d.frames.length := by
  simpa using congrArg List.length h.nodes

/-- Below the root leaving forgets all that was requested. -/
theorem leave (h : Tightens P d e) (hdeep : 2 ≤ d.frames.length) :
    Agree e.leave d.leave := by
  induction h with
  | refl => rfl
  | request reason h _ ih =>
    exact (leave_tighten (by rw [h.frames_length]; exact hdeep) _ _ _ reason).trans ih
  | agree _ hagree ih => exact hagree.leave.symm.trans ih

end Tightens

end BranchAndCut.Domains

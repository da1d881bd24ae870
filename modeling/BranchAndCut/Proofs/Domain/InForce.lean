import BranchAndCut.Proofs.Domain.Replay

/-! # Changes that a move puts in force

A change that moves a bound by less than counts as a tightening is not applied when its
node is entered. The bounds of integral variables are whole, but what counts grows with
the bound, and from a thousand million on a step of one does not count. So after a move
the changes of the nodes entered are in force up to that slack, and where the bounds are
smaller they are in force as they are. -/

namespace BranchAndCut

namespace Domains

/-! ## Bounds up to the slack -/

/-- The bound is less than a thousand million, or infinite. -/
def SlackBelowOne (b : Exact ℚ) : Prop := ∀ a : ℚ, b = .fin a → |a| < 10 ^ 9

variable [Rooted ℚ] {b b' x y : Exact ℚ}

theorem le_add_boundEps_of_le (h : x ≤ b + boundEps b) (hb : b ≤ b') : x ≤ b' + boundEps b' := by
  have hx := (Exact.ne_nan_of_le h).1
  cases b with
  | nan => exact hb.elim
  | negInf =>
    rw [boundEps_of_infinite rfl] at h
    exact absurd rfl (Exact.ne_nan_of_le h).2
  | posInf =>
    cases b' with
    | posInf => exact h
    | _ => exact hb.elim
  | fin a =>
    cases b' with
    | posInf =>
      rw [boundEps_of_infinite rfl]
      cases x <;> first | exact (hx rfl).elim | trivial
    | fin a' =>
      rw [Exact.fin_le] at hb
      have hslack := abs_slack_sub_le a a'
      rw [abs_le, abs_sub_comm, abs_of_nonneg (sub_nonneg.mpr hb)] at hslack
      rw [boundEps_slack] at h ⊢
      refine Exact.le_trans' h ?_
      rw [Exact.fin_add, Exact.fin_add, Exact.fin_le]
      linarith
    | _ => exact hb.elim

theorem sub_boundEps_le_of_le (h : b - boundEps b ≤ x) (hb : b' ≤ b) : b' - boundEps b' ≤ x := by
  have hx := (Exact.ne_nan_of_le h).2
  cases b with
  | nan => cases b' <;> exact hb.elim
  | posInf =>
    rw [boundEps_of_infinite rfl] at h
    exact absurd rfl (Exact.ne_nan_of_le h).1
  | negInf =>
    cases b' with
    | negInf => exact h
    | _ => exact hb.elim
  | fin a =>
    cases b' with
    | negInf =>
      rw [boundEps_of_infinite rfl]
      cases x <;> first | exact (hx rfl).elim | trivial
    | fin a' =>
      rw [Exact.fin_le] at hb
      have hslack := abs_slack_sub_le a a'
      rw [abs_le, abs_of_nonneg (sub_nonneg.mpr hb)] at hslack
      rw [boundEps_slack] at h ⊢
      refine Exact.le_trans' ?_ h
      rw [Exact.fin_sub, Exact.fin_sub, Exact.fin_le]
      linarith
    | _ => exact hb.elim

end Domains

namespace BoundKind

variable [Rooted ℚ] {kind : BoundKind} {b b' x y : Exact ℚ}

/-- Whether a bound is as tight as the value, or looser by less than counts as a tightening. -/
def Reaches (kind : BoundKind) (bound value : Exact ℚ) : Prop :=
  match kind with
  | .lower => value ≤ bound + Domains.boundEps bound
  | .upper => bound - Domains.boundEps bound ≤ value

/-- A bound that moves inwards stays as tight as it was. -/
theorem Reaches.inward (h : kind.Reaches b x) (hb : kind.Inward b b') : kind.Reaches b' x := by
  cases kind with
  | lower => exact Domains.le_add_boundEps_of_le h hb
  | upper => exact Domains.sub_boundEps_le_of_le h hb

/-- It is as tight as whatever is looser than the value. -/
theorem Reaches.weaken (h : kind.Reaches b x) (hx : kind.Inward y x) : kind.Reaches b y := by
  cases kind with
  | lower => exact Exact.le_trans' hx h
  | upper => exact Exact.le_trans' h hx

/-- A bound is as tight as any number beyond it. -/
theorem reaches_fin {a : ℚ} (h : kind.Inward (.fin a) b) : kind.Reaches b (.fin a) := by
  cases kind with
  | lower =>
    have hfinite : b ≠ .negInf := by
      rintro rfl
      exact h.elim
    exact Exact.le_trans' h (Domains.le_add_boundEps (Exact.ne_nan_of_le h).2 hfinite)
  | upper =>
    have hfinite : b ≠ .posInf := by
      rintro rfl
      exact h.elim
    exact Exact.le_trans' (Domains.sub_boundEps_le (Exact.ne_nan_of_le h).1 hfinite) h

/-- **Small whole bounds** are as tight as the whole numbers that they reach. -/
theorem Reaches.exact {z : ℤ} (h : kind.Reaches b (.fin z)) (hb : Scalar.Whole b) (hsmall : Domains.SlackBelowOne b) :
    kind.Inward (.fin z) b := by
  cases b with
  | nan => cases kind <;> exact h.elim
  | posInf =>
    cases kind with
    | lower => trivial
    | upper =>
      unfold Reaches at h
      rw [Domains.boundEps_of_infinite rfl] at h
      exact h.elim
  | negInf =>
    cases kind with
    | lower =>
      unfold Reaches at h
      rw [Domains.boundEps_of_infinite rfl] at h
      exact h.elim
    | upper => trivial
  | fin a =>
    have hslack := Domains.slack_lt_one (hsmall a rfl)
    obtain ⟨y, rfl⟩ := Exact.exists_int_of_whole hb
    unfold Reaches at h
    rw [Domains.boundEps_slack] at h
    have hclose : ∀ {m n : ℤ}, (m : ℚ) - Domains.slack y ≤ n → (m : ℚ) ≤ n := by
      intro m n hle
      have hlt : (m : ℚ) < n + 1 := by linarith
      exact_mod_cast Int.lt_add_one_iff.mp (by exact_mod_cast hlt)
    cases kind with
    | lower =>
      have hle : (z : ℚ) ≤ y + Domains.slack y := h
      exact hclose (sub_le_iff_le_add.mpr hle)
    | upper =>
      have hle : Exact.fin (y : ℚ) - .fin (Domains.slack y) ≤ .fin z := h
      rw [Exact.fin_sub] at hle
      exact hclose hle

end BoundKind

namespace Domains

variable [Rooted ℚ] {t : ℚ} {d e : Domains (Exact ℚ)} {v w : VarId} {kind : BoundKind} {value new : Exact ℚ}
  {cs : List (BoundChange (Exact ℚ))} {c : BoundChange (Exact ℚ)} {delta : NodeId → List (BoundChange (Exact ℚ))}
  {n : NodeId}

/-! ## Requests for bounds of integral variables -/

/-- The bounds of an integral variable are whole numbers or infinite, and the tolerance is
below one half. -/
structure WholeBounds (t : ℚ) (d : Domains (Exact ℚ)) (v : VarId) : Prop where
  tol : d.tol = .fin t
  half : t < 2⁻¹
  integral : d.isIntegral v = true
  held : v < d.lower.size ∧ v < d.upper.size
  whole : ∀ kind, Scalar.Whole (d.bound v kind)
  defined : ∀ kind, d.bound v kind ≠ .nan

/-- A request does nothing where its value is reached. -/
theorem judge_redundant : (d.judge v kind value).1 = .redundant ↔
    Scalar.isNaN value = true ∨ kind.Reaches (d.bound v kind) (d.rounded v kind value) := by
  cases kind with
  | lower =>
    unfold BoundKind.Reaches bound
    rw [judge_lower]
    split_ifs <;> simp_all
  | upper =>
    unfold BoundKind.Reaches bound
    rw [judge_upper]
    split_ifs <;> simp_all

/-- Between whole bounds what is applied is the value that it is judged by. -/
theorem judge_applied_whole (htol : d.tol = .fin t) (hlt : t < 1) (hv : d.isIntegral v = true)
    (hwhole : ∀ kind, Scalar.Whole (d.bound v kind)) (hdefined : ∀ kind, d.bound v kind ≠ .nan)
    (happlied : d.judge v kind value = (.applied, new)) :
    new = d.rounded v kind value ∧ d.lb v ≤ new ∧ new ≤ d.ub v := by
  have hlb : d.lb v ≠ .nan := hdefined .lower
  have hub : d.ub v ≠ .nan := hdefined .upper
  have hrounded := rounded_whole hv kind value
  cases kind with
  | lower =>
    obtain ⟨hnan, hmoves, hfeasible, rfl⟩ := judge_lower_applied.mp happlied
    have hr : d.rounded v .lower value ≠ .nan := rounded_ne_nan htol v .lower (by simp [hnan])
    rw [htol] at hfeasible
    have hle : d.rounded v .lower value ≤ d.ub v := Exact.le_of_not_add_lt_whole hrounded (hwhole .upper) hr hub hlt hfeasible
    rw [Exact.min_eq_left' hle]
    exact ⟨rfl, le_of_not_le_add_boundEps hlb hr hmoves, hle⟩
  | upper =>
    obtain ⟨hnan, hmoves, hfeasible, rfl⟩ := judge_upper_applied.mp happlied
    have hr : d.rounded v .upper value ≠ .nan := rounded_ne_nan htol v .upper (by simp [hnan])
    rw [htol] at hfeasible
    have hle : d.lb v ≤ d.rounded v .upper value := Exact.le_of_not_add_lt_whole (hwhole .lower) hrounded hlb hr hlt
      fun h => hfeasible (Exact.lt_sub_of_add_lt h)
    rw [Exact.max_eq_left' hle]
    exact ⟨rfl, hle, le_of_not_sub_boundEps_le hub hr hmoves⟩

/-- What is applied is the value itself, and a bound that is tighter. -/
theorem WholeBounds.judge_applied (h : d.WholeBounds t v) (happlied : d.judge v kind value = (.applied, new)) :
    new = d.rounded v kind value ∧ new ≠ .nan ∧ kind.Inward (d.bound v kind) new := by
  obtain ⟨heq, hlow, hhigh⟩ :=
    judge_applied_whole h.tol (h.half.trans two_inv_lt_one) h.integral h.whole h.defined happlied
  refine ⟨heq, (Exact.ne_nan_of_le hlow).2, ?_⟩
  cases kind with
  | lower => exact hlow
  | upper => exact hhigh

/-- A whole number is rounded inwards, if at all. -/
theorem WholeBounds.rounded_inward (h : d.WholeBounds t v) (kind : BoundKind) (z : ℤ) :
    kind.Inward (.fin z) (d.rounded v kind (.fin z)) := by
  have hhalf := h.half
  unfold Domains.rounded
  rw [if_pos h.integral, h.tol]
  cases kind with
  | lower =>
    change Exact.fin (z : ℚ) ≤ Scalar.ceil (Exact.fin (z : ℚ) - .fin t)
    rw [Exact.fin_sub, Exact.ceil_fin]
    have hceil : z ≤ ⌈(z : ℚ) - t⌉ := by
      rw [Int.le_ceil_iff]
      linarith
    exact (Exact.fin_le _ _).mpr (Int.cast_le.mpr hceil)
  | upper =>
    change Scalar.floor (Exact.fin (z : ℚ) + .fin t) ≤ .fin (z : ℚ)
    rw [Exact.fin_add, Exact.floor_fin]
    have hfloor : ⌊(z : ℚ) + t⌋ ≤ z := by
      rw [Int.floor_le_iff]
      linarith
    exact (Exact.fin_le _ _).mpr (Int.cast_le.mpr hfloor)

/-- **A request** keeps the bounds of an integral variable whole, and moves them inwards if at
all, whatever it is for. -/
theorem WholeBounds.tighten (h : d.WholeBounds t w) (v : VarId) (kind : BoundKind) (value : Exact ℚ) (reason : Reason) :
    (d.tighten v kind value reason).2.WholeBounds t w ∧
      ∀ k : BoundKind, k.Inward (d.bound w k) ((d.tighten v kind value reason).2.bound w k) := by
  refine tighten_keeps (I := fun e => e.WholeBounds t w ∧ ∀ k : BoundKind, k.Inward (d.bound w k) (e.bound w k))
    ⟨h, fun k => .refl (h.defined k)⟩ fun new happlied => ?_
  have hnew : w = v → Scalar.Whole new ∧ new ≠ .nan ∧ kind.Inward (d.bound w kind) new := by
    rintro rfl
    obtain ⟨rfl, hdefined, hinward⟩ := h.judge_applied happlied
    exact ⟨rounded_whole h.integral kind value, hdefined, hinward⟩
  have hbound : ∀ k : BoundKind, Scalar.Whole ((d.record v kind new reason).bound w k) ∧
      (d.record v kind new reason).bound w k ≠ .nan ∧ k.Inward (d.bound w k) ((d.record v kind new reason).bound w k) := by
    intro k
    rcases bound_record (d := d) v w kind k new reason with hsame | ⟨hw, rfl, heq⟩
    · rw [hsame]
      exact ⟨h.whole k, h.defined k, .refl (h.defined k)⟩
    · rw [heq]
      exact hnew hw
  have hshape := shape_record d v kind new reason
  have hlower : (d.record v kind new reason).lower.size = d.lower.size := congrArg Shape.lower hshape
  have hupper : (d.record v kind new reason).upper.size = d.upper.size := congrArg Shape.upper hshape
  refine ⟨⟨(d.record_tol v kind new reason).trans h.tol, h.half, ?_, ?_, fun k => (hbound k).1, fun k => (hbound k).2.1⟩,
    fun k => (hbound k).2.2⟩
  · rw [isIntegral_of_shape hshape]
    exact h.integral
  · rw [hlower, hupper]
    exact h.held

/-- **A request for a whole number** that is not refused is reached. -/
theorem WholeBounds.tighten_reaches (h : d.WholeBounds t v) {z : ℤ} (reason : Reason)
    (hfeasible : (d.tighten v kind (.fin z) reason).1 ≠ .infeasible) :
    kind.Reaches ((d.tighten v kind (.fin z) reason).2.bound v kind) (.fin z) := by
  have hrounded := h.rounded_inward kind z
  unfold Domains.tighten at hfeasible ⊢
  cases hjudge : d.judge v kind (.fin z) with
  | mk outcome new =>
    rw [hjudge] at hfeasible
    cases outcome with
    | infeasible => exact absurd rfl hfeasible
    | redundant =>
      have hreached := judge_redundant.mp (congrArg Prod.fst hjudge)
      simp only [Exact.isNaN_fin, Bool.false_eq_true, false_or] at hreached
      exact hreached.weaken hrounded
    | applied =>
      obtain ⟨rfl, -, -⟩ := h.judge_applied hjudge
      have hbound : (d.record v kind (d.rounded v kind (.fin z)) reason).bound v kind = d.rounded v kind (.fin z) := by
        cases kind with
        | lower => exact (lb_record ..).trans (if_pos ⟨rfl, rfl, h.held.1⟩)
        | upper => exact (ub_record ..).trans (if_pos ⟨rfl, rfl, h.held.2⟩)
      change kind.Reaches ((d.record v kind (d.rounded v kind (.fin z)) reason).bound v kind) (.fin z)
      rw [hbound]
      exact BoundKind.reaches_fin hrounded

/-! ## Replays and moves -/

/-- Bounds of integral variables stay whole and only move inwards. -/
def MovesInwards (t : ℚ) (d e : Domains (Exact ℚ)) : Prop :=
  ∀ v, d.WholeBounds t v → e.WholeBounds t v ∧ ∀ k : BoundKind, k.Inward (d.bound v k) (e.bound v k)

theorem MovesInwards.refl (d : Domains (Exact ℚ)) : MovesInwards t d d := fun _ h => ⟨h, fun k => .refl (h.defined k)⟩

theorem MovesInwards.trans {f : Domains (Exact ℚ)} (h : MovesInwards t d e) (h' : MovesInwards t e f) : MovesInwards t d f := by
  intro v hv
  obtain ⟨he, hde⟩ := h v hv
  obtain ⟨hf, hef⟩ := h' v he
  exact ⟨hf, fun k => (hde k).trans (hef k)⟩

theorem inwards_tighten (d : Domains (Exact ℚ)) (v : VarId) (kind : BoundKind) (value : Exact ℚ) (reason : Reason) :
    MovesInwards t d (d.tighten v kind value reason).2 := fun _ h => h.tighten v kind value reason

theorem inwards_replay (d : Domains (Exact ℚ)) (cs : List (BoundChange (Exact ℚ))) : MovesInwards t d (d.replay cs).2 :=
  replay_keeps (P := MovesInwards t d) (fun c _ e he => he.trans (e.inwards_tighten c.var c.kind c.new c.reason)) (.refl d)

theorem WholeBounds.push (h : d.WholeBounds t v) (node : NodeId) : (d.push node).WholeBounds t v :=
  ⟨h.tol, h.half, h.integral, h.held, h.whole, h.defined⟩

variable (delta) in
theorem inwards_enter (acc : Bool × Domains (Exact ℚ)) (node : NodeId) : MovesInwards t acc.2 (enter delta acc node).2 := by
  have hpush : MovesInwards t acc.2 (acc.2.push node) := fun v hv => ⟨hv.push node, fun k => .refl (hv.defined k)⟩
  unfold enter
  dsimp only
  split
  · exact hpush.trans (inwards_replay _ _)
  · exact hpush

theorem inwards_foldl_enter (acc : Bool × Domains (Exact ℚ)) (nodes : List NodeId) :
    MovesInwards t acc.2 (nodes.foldl (enter delta) acc).2 := by
  induction nodes generalizing acc with
  | nil => exact .refl _
  | cons node nodes ih => exact (inwards_enter delta acc node).trans (ih _)

/-- What the change asks for is reached. -/
def Reached (d : Domains (Exact ℚ)) (c : BoundChange (Exact ℚ)) : Prop :=
  c.kind.Reaches (d.bound c.var c.kind) c.new

theorem MovesInwards.reached (h : MovesInwards t d e) (hv : d.WholeBounds t c.var) (hc : d.Reached c) : e.Reached c :=
  BoundKind.Reaches.inward hc ((h c.var hv).2 c.kind)

/-- **A replay that succeeds** reaches each of its changes. -/
theorem replay_reached (hok : (d.replay cs).1 = true) (hc : c ∈ cs) (hv : d.WholeBounds t c.var) {z : ℤ}
    (hz : c.new = .fin z) : (d.replay cs).2.Reached c := by
  induction cs generalizing d with
  | nil => cases hc
  | cons c' cs ih =>
    have hinwards := d.inwards_tighten (t := t) c'.var c'.kind c'.new c'.reason
    have hreached : c = c' → (d.tighten c'.var c'.kind c'.new c'.reason).1 ≠ .infeasible →
        (d.tighten c'.var c'.kind c'.new c'.reason).2.Reached c := by
      rintro rfl hfeasible
      unfold Reached
      rw [hz] at hfeasible ⊢
      exact hv.tighten_reaches c.reason hfeasible
    unfold Domains.replay at hok ⊢
    generalize d.tighten c'.var c'.kind c'.new c'.reason = requested at hok hinwards hreached ⊢
    obtain ⟨outcome, e⟩ := requested
    have he := (hinwards c.var hv).1
    cases outcome with
    | infeasible => cases hok
    | _ =>
      rcases List.mem_cons.mp hc with heq | hmem
      · exact (inwards_replay e cs).reached he (hreached heq (by simp))
      · exact ih hok hmem he

/-- **Nodes that are entered without a conflict** leave each of their changes reached. -/
theorem foldl_enter_reached {acc : Bool × Domains (Exact ℚ)} {nodes : List NodeId}
    (hok : (nodes.foldl (enter delta) acc).1 = true) (hn : n ∈ nodes) (hc : c ∈ delta n)
    (hv : acc.2.WholeBounds t c.var) {z : ℤ} (hz : c.new = .fin z) : (nodes.foldl (enter delta) acc).2.Reached c := by
  induction nodes generalizing acc with
  | nil => cases hn
  | cons node nodes ih =>
    have hnext := (inwards_enter delta acc node c.var hv).1
    rcases List.mem_cons.mp hn with rfl | hmem
    · have hentered : (enter delta acc n).1 = true := foldl_enter_feasible hok
      have hacc := enter_feasible hentered
      refine (inwards_foldl_enter (enter delta acc n) nodes).reached hnext ?_
      unfold enter at hentered ⊢
      rw [hacc] at hentered ⊢
      exact replay_reached hentered hc (hv.push n) hz
    · exact ih hok hmem hnext

/-- The change is in force: up to the slack, and as it is where that is below one. -/
structure InForce (d : Domains (Exact ℚ)) (c : BoundChange (Exact ℚ)) : Prop where
  reached : d.Reached c
  exact : SlackBelowOne (d.bound c.var c.kind) → c.kind.Inward c.new (d.bound c.var c.kind)

/-- A move from off the path puts in force the changes of the nodes entered. -/
theorem restore_inForce (hd : d.frames = []) {target : List NodeId} (hok : (d.restore target delta).1 = true)
    (hn : n ∈ target) (hc : c ∈ delta n) (hv : d.offPath.WholeBounds t c.var) {z : ℤ} (hz : c.new = .fin z) :
    (d.restore target delta).2.InForce c := by
  rw [restore_of_empty hd] at hok ⊢
  have hstart : (d.leaveTo 0).WholeBounds t c.var := by rwa [leaveTo_zero]
  have hreached : (arrive delta d target).2.Reached c := foldl_enter_reached hok hn hc hstart hz
  have hwhole : (arrive delta d target).2.WholeBounds t c.var := (inwards_foldl_enter _ target c.var hstart).1
  refine ⟨hreached, fun hsmall => ?_⟩
  unfold Reached at hreached
  rw [hz] at hreached ⊢
  exact hreached.exact (hwhole.whole c.kind) hsmall

/-! ## Branching on a variable -/

variable {old : Exact ℚ} {x : ℚ}

theorem InForce.down (h : d.InForce (.down v old (.fin x))) (hx : ∀ z : ℤ, x ≠ z) (hsmall : SlackBelowOne (d.ub v)) :
    d.ub v < .fin x := by
  have hub : d.ub v ≤ .fin (⌊x⌋ : ℚ) := h.exact hsmall
  have hlt : (⌊x⌋ : ℚ) < x := lt_of_le_of_ne (Int.floor_le x) (hx _).symm
  exact Exact.lt_of_le_of_lt' hub ((Exact.fin_lt _ _).mpr hlt)

theorem InForce.up (h : d.InForce (.up v old (.fin x))) (hx : ∀ z : ℤ, x ≠ z) (hsmall : SlackBelowOne (d.lb v)) :
    .fin x < d.lb v := by
  have hlb : .fin (⌈x⌉ : ℚ) ≤ d.lb v := h.exact hsmall
  have hlt : x < (⌈x⌉ : ℚ) := lt_of_le_of_ne (Int.le_ceil x) (hx _)
  exact Exact.lt_of_lt_of_le' ((Exact.fin_lt _ _).mpr hlt) hlb

/-- **After a move that meets no conflict** the changes of the nodes on the path that set a bound
of an integral variable to a whole number are in force. Where the bound is small, neither child
of a branching has the fractional value that it was made for. -/
theorem restore_in_force (hd : d.frames = []) (hwhole : ∀ v, d.isIntegral v = true → d.offPath.WholeBounds t v)
    {target : List NodeId} (hok : (d.restore target delta).1 = true) :
    (∀ n ∈ target, ∀ c ∈ delta n, d.isIntegral c.var = true → ∀ z : ℤ, c.new = .fin z →
      (d.restore target delta).2.InForce c) ∧
    ∀ n ∈ target, ∀ v old, ∀ x : ℚ, d.isIntegral v = true → (∀ z : ℤ, x ≠ z) →
      (.down v old (.fin x) ∈ delta n → SlackBelowOne ((d.restore target delta).2.ub v) →
        (d.restore target delta).2.ub v < .fin x) ∧
      (.up v old (.fin x) ∈ delta n → SlackBelowOne ((d.restore target delta).2.lb v) →
        .fin x < (d.restore target delta).2.lb v) := by
  have hall : ∀ n ∈ target, ∀ c ∈ delta n, d.isIntegral c.var = true → ∀ z : ℤ, c.new = .fin z →
      (d.restore target delta).2.InForce c := fun n hn c hc hv _ hz =>
    restore_inForce hd hok hn hc (hwhole c.var hv) hz
  refine ⟨hall, fun n hn v old x hv hx => ⟨fun hc hsmall => ?_, fun hc hsmall => ?_⟩⟩
  · exact (hall n hn _ hc hv ⌊x⌋ rfl).down hx hsmall
  · exact (hall n hn _ hc hv ⌈x⌉ rfl).up hx hsmall

end Domains

namespace Domains

/-- Two branchings on a variable. -/
theorem restore_in_force_twice :
    let d : Domains (Exact ℚ) := new #[.fin 0] #[.fin 10] #[true] (.fin (1 / 1000))
    let delta : NodeId → List (BoundChange (Exact ℚ)) := fun
      | 1 => [.down 0 (.fin 10) (.fin (7 / 2))]
      | 2 => [.up 0 (.fin 0) (.fin (3 / 2))]
      | _ => []
    (d.restore [0, 1, 2] delta).1 = true ∧ (d.restore [0, 1, 2] delta).2.InForce (.down 0 (.fin 10) (.fin (7 / 2))) ∧
      .fin (3 / 2) < (d.restore [0, 1, 2] delta).2.lb 0 := by
  intro d delta
  have hwhole : ∀ v, d.isIntegral v = true → d.offPath.WholeBounds (1 / 1000) v := by
    intro v hv
    obtain rfl : v = 0 := by
      by_contra hne
      simp [d, new, isIntegral, hne] at hv
    refine ⟨rfl, by norm_num, hv, by decide, fun kind => ?_, fun kind => ?_⟩
    · cases kind
      · exact Exact.whole_fin.mpr (by norm_num)
      · exact Exact.whole_fin.mpr (by norm_num)
    · cases kind
      · exact Exact.fin_ne_nan _
      · exact Exact.fin_ne_nan _
  have hempty : d.frames = [] := rfl
  have hok : (d.restore [0, 1, 2] delta).1 = true := by decide +kernel
  have hlb : (d.restore [0, 1, 2] delta).2.lb 0 = .fin 2 := by decide +kernel
  have hsmall : SlackBelowOne ((d.restore [0, 1, 2] delta).2.lb 0) := by
    intro a ha
    obtain rfl := Exact.fin.inj (hlb.symm.trans ha)
    norm_num
  have hfraction : ∀ z : ℤ, (3 / 2 : ℚ) ≠ z := by
    intro z hz
    have hden := congrArg Rat.den hz
    norm_num at hden
  have hdown : .down 0 (.fin 10) (.fin (7 / 2)) ∈ delta 1 := List.mem_cons_self
  have hup : .up 0 (.fin 0) (.fin (3 / 2)) ∈ delta 2 := List.mem_cons_self
  obtain ⟨hall, hbranch⟩ := restore_in_force hempty hwhole hok
  obtain ⟨-, hexcluded⟩ := hbranch 2 (by decide) 0 (.fin 0) (3 / 2) rfl hfraction
  have hfloor : (BoundChange.down 0 (.fin 10) (.fin (7 / 2)) : BoundChange (Exact ℚ)).new = .fin (⌊(7 / 2 : ℚ)⌋ : ℚ) :=
    Exact.floor_fin _
  have hinforce := hall 1 (by decide) _ hdown rfl _ hfloor
  clear_value d delta
  exact ⟨hok, hinforce, hexcluded hup hsmall⟩

/-- From a thousand million on a step of one is not applied, and the child of the branching has
the domain of its parent. -/
theorem restore_skips_unit_step :
    let d : Domains (Exact ℚ) := new #[.fin 0] #[.fin (2 * 10 ^ 9 + 1)] #[true] (.fin (1 / 1000000))
    let delta : NodeId → List (BoundChange (Exact ℚ)) := fun
      | 1 => [.down 0 (.fin (2 * 10 ^ 9 + 1)) (.fin (2 * 10 ^ 9 + 1 / 2))]
      | _ => []
    (d.restore [0, 1] delta).1 = true ∧ ((delta 1).map (·.new)) = [.fin (2 * 10 ^ 9)] ∧
      ¬ (d.restore [0, 1] delta).2.ub 0 ≤ .fin (2 * 10 ^ 9) ∧
      (d.restore [0, 1] delta).2.lb 0 = d.lb 0 ∧ (d.restore [0, 1] delta).2.ub 0 = d.ub 0 := by
  decide +kernel

end Domains

end BranchAndCut

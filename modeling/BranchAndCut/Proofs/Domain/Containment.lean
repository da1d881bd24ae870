import BranchAndCut.Proofs.Domain.Calls
import BranchAndCut.Proofs.Domain.Replay

/-! # Local domains stay inside the global ones

What is applied lies between the two local bounds, so that a domain that is not empty at
creation is never emptied, and global bounds move only while they are the local ones. A
variable may also be created with crossing bounds. An applied request then moves one of
them onto the other, since a value beyond both stops at the opposite bound. -/

namespace BranchAndCut

namespace Exact

variable {F : Type} [Field F] [LinearOrder F] [FloorRing F] [Rooted F] {x y : Exact F}

theorem min_eq_right' (h : y ≤ x) : Scalar.min x y = y := by
  rcases Scalar.min_cases x y with heq | heq
  · exact le_antisymm' (heq ▸ min_le_right' (ne_nan_of_le h).1) (heq.symm ▸ h)
  · exact heq

theorem max_eq_right' (h : x ≤ y) : Scalar.max x y = y := by
  rcases Scalar.max_cases x y with heq | heq
  · exact le_antisymm' (heq.symm ▸ h) (heq ▸ le_max_right' (ne_nan_of_le h).2)
  · exact heq

end Exact

/-- The kind of the other bound. -/
def BoundKind.opposite : BoundKind → BoundKind
  | .lower => .upper
  | .upper => .lower

namespace Domains

variable [Rooted ℚ] {d e : Domains (Exact ℚ)} {v w : VarId} {kind : BoundKind} {value new : Exact ℚ}
  {crossing : Prop}

/-- The local domain is not empty and lies in the global one, which it is as long as no
node below the root is entered. -/
structure Contained (d : Domains (Exact ℚ)) (v : VarId) : Prop where
  lower : d.globalLb v ≤ d.lb v
  between : d.lb v ≤ d.ub v
  upper : d.ub v ≤ d.globalUb v
  root : d.frames.length ≤ 1 → d.lb v = d.globalLb v ∧ d.ub v = d.globalUb v

/-- All bounds stand the other way round. -/
structure Crossed (d : Domains (Exact ℚ)) (v : VarId) : Prop where
  lower : d.lb v ≤ d.globalLb v
  between : d.ub v ≤ d.lb v
  upper : d.globalUb v ≤ d.ub v

/-- What is applied lies between the bounds. -/
theorem applied_between (hle : d.lb v ≤ d.ub v) (happlied : d.judge v kind value = (.applied, new)) :
    d.lb v ≤ new ∧ new ≤ d.ub v := by
  have hbetween := judge_between hle (congrArg Prod.fst happlied)
  rwa [happlied] at hbetween

/-! ## Recording a bound -/

theorem Contained.record (h : d.Contained w) (hd : Aligned d) (hv : v < d.numVars)
    (hvalue : w = v → d.lb v ≤ value ∧ value ≤ d.ub v) (kind : BoundKind) (reason : Reason) :
    (d.record v kind value reason).Contained w := by
  obtain ⟨hlower, hbetween, hupper, hroot⟩ := h
  have hframes : (d.record v kind value reason).frames.length = d.frames.length := by
    simpa using congrArg List.length (d.record_nodes v kind value reason)
  have hin : v < d.lower.size ∧ v < d.upper.size ∧ v < d.globalLower.size ∧ v < d.globalUpper.size := by
    rw [hd.upper, hd.globalLower, hd.globalUpper]
    exact ⟨hv, hv, hv, hv⟩
  by_cases hw : w = v
  · subst hw
    obtain ⟨hlow, hhigh⟩ := hvalue rfl
    have hne := (Exact.ne_nan_of_le hlow).2
    have hmax : Scalar.max (d.globalLb w) value = value := Exact.max_eq_right' (Exact.le_trans' hlower hlow)
    have hmin : Scalar.min (d.globalUb w) value = value := Exact.min_eq_right' (Exact.le_trans' hhigh hupper)
    refine ⟨?_, ?_, ?_, fun hshort => ?_⟩
    all_goals
      simp only [lb_record, ub_record, globalLb_record, globalUb_record, hin, hmax, hmin, atRoot, and_true]
      cases kind <;> simp only [reduceCtorEq, if_true, if_false, false_and, true_and]
    · split_ifs
      · exact Exact.le_refl' hne
      · exact Exact.le_trans' hlower hlow
    · exact hlower
    · exact hhigh
    · exact hlow
    · exact hupper
    · split_ifs
      · exact Exact.le_refl' hne
      · exact Exact.le_trans' hhigh hupper
    all_goals
      rw [hframes] at hshort
      simp [hshort, hroot hshort]
  · refine ⟨?_, ?_, ?_, fun hshort => ?_⟩
    all_goals
      simp only [lb_record, ub_record, globalLb_record, globalUb_record, hw, false_and, and_false, if_false]
    · exact hlower
    · exact hbetween
    · exact hupper
    · exact hroot (hframes ▸ hshort)

/-- What is applied to crossing bounds is the opposite bound. -/
theorem judge_of_crossing (hcross : d.ub v ≤ d.lb v) (happlied : d.judge v kind value = (.applied, new)) :
    new = d.bound v kind.opposite := by
  obtain ⟨hub, hlb⟩ := Exact.ne_nan_of_le hcross
  cases kind with
  | lower =>
    obtain ⟨-, hmoves, -, rfl⟩ := judge_lower_applied.mp happlied
    by_cases hr : d.rounded v .lower value = .nan
    · rw [hr]
      rfl
    · exact Exact.min_eq_right' (Exact.le_trans' hcross (le_of_not_le_add_boundEps hlb hr hmoves))
  | upper =>
    obtain ⟨-, hmoves, -, rfl⟩ := judge_upper_applied.mp happlied
    by_cases hr : d.rounded v .upper value = .nan
    · rw [hr]
      rfl
    · exact Exact.max_eq_right' (Exact.le_trans' (le_of_not_sub_boundEps_le hub hr hmoves) hcross)

theorem Crossed.record (h : d.Crossed w)
    (hvalue : w = v → value = d.bound v kind.opposite) (reason : Reason) :
    (d.record v kind value reason).Crossed w := by
  obtain ⟨hlower, hbetween, hupper⟩ := h
  have hub := (Exact.ne_nan_of_le hbetween).1
  have hlb := (Exact.ne_nan_of_le hbetween).2
  by_cases hw : w = v
  · subst hw
    obtain rfl := hvalue rfl
    have hmax : Scalar.max (d.globalLb w) (d.ub w) = d.globalLb w :=
      Exact.max_eq_left' (Exact.le_trans' hbetween hlower)
    have hmin : Scalar.min (d.globalUb w) (d.lb w) = d.globalUb w :=
      Exact.min_eq_left' (Exact.le_trans' hupper hbetween)
    refine ⟨?_, ?_, ?_⟩
    all_goals
      simp only [lb_record, ub_record, globalLb_record, globalUb_record, true_and]
      cases kind <;>
        simp only [bound, BoundKind.opposite, reduceCtorEq, if_false, false_and, true_and, hmax, hmin, ite_self]
    · split_ifs
      · exact Exact.le_trans' hbetween hlower
      · exact hlower
    · exact hlower
    · split_ifs
      · exact Exact.le_refl' hub
      · exact hbetween
    · split_ifs
      · exact Exact.le_refl' hlb
      · exact hbetween
    · exact hupper
    · split_ifs
      · exact Exact.le_trans' hupper hbetween
      · exact hupper
  · refine ⟨?_, ?_, ?_⟩
    all_goals
      simp only [lb_record, ub_record, globalLb_record, globalUb_record, hw, false_and, and_false, if_false]
    · exact hlower
    · exact hbetween
    · exact hupper

/-! ## All variables -/

/-- The bounds of a new variable are in order, or may cross. -/
def Allowed (crossing : Prop) (_ lower upper : Exact ℚ) (_ : Bool) : Prop :=
  lower ≤ upper ∨ crossing ∧ upper ≤ lower

/-- Every local domain lies in the global one, except where bounds have been crossing from
the start. -/
structure Placed (crossing : Prop) (d : Domains (Exact ℚ)) : Prop where
  aligned : Aligned d
  placed : ∀ v < d.numVars, d.Contained v ∨ crossing ∧ d.Crossed v

theorem Placed.tighten (h : Placed crossing d) (hv : v < d.numVars) (kind : BoundKind) (value : Exact ℚ)
    (reason : Reason) : Placed crossing (d.tighten v kind value reason).2 := by
  refine tighten_keeps (I := Placed crossing) h fun new happlied => ?_
  refine ⟨h.aligned.record kind new reason hv, fun w hw => ?_⟩
  rw [record_numVars] at hw
  rcases h.placed w hw with hin | ⟨hcrossing, hout⟩
  · refine .inl (hin.record h.aligned hv (fun hwv => ?_) kind reason)
    subst hwv
    exact applied_between hin.between happlied
  · refine .inr ⟨hcrossing, hout.record (fun hwv => ?_) reason⟩
    subst hwv
    exact judge_of_crossing hout.between happlied

theorem placed_agree (d e : Domains (Exact ℚ)) (hde : Agree d e) (h : Placed crossing d) : Placed crossing e := by
  refine ⟨h.aligned.agree hde, ?_⟩
  rw [hde.eq_with]
  intro v hv
  rcases h.placed v hv with ⟨hlower, hbetween, hupper, hroot⟩ | ⟨hcrossing, hlower, hbetween, hupper⟩
  · exact .inl ⟨hlower, hbetween, hupper, hroot⟩
  · exact .inr ⟨hcrossing, hlower, hbetween, hupper⟩

/-- A node that is entered is not yet below the root if it is the first. -/
theorem Placed.push (h : Placed crossing d) (node : NodeId) : Placed crossing (d.push node) := by
  refine ⟨h.aligned.push node, fun v hv => ?_⟩
  rcases h.placed v hv with ⟨hlower, hbetween, hupper, hroot⟩ | ⟨hcrossing, hlower, hbetween, hupper⟩
  · refine .inl ⟨hlower, hbetween, hupper, fun hshort => hroot ?_⟩
    simp only [Domains.push, List.length_cons] at hshort
    omega
  · exact .inr ⟨hcrossing, hlower, hbetween, hupper⟩

theorem Placed.offPath (h : Placed crossing d) : Placed crossing d.offPath := by
  refine ⟨h.aligned.offPath, fun v hv => ?_⟩
  have hv' : v < d.numVars := by
    rw [numVars, ← h.aligned.globalLower]
    exact hv
  rcases h.placed v hv' with hin | ⟨hcrossing, hout⟩
  · exact .inl ⟨Exact.le_refl' (Exact.ne_nan_of_le hin.lower).1,
      Exact.le_trans' hin.lower (Exact.le_trans' hin.between hin.upper),
      Exact.le_refl' (Exact.ne_nan_of_le hin.upper).2, fun _ => ⟨rfl, rfl⟩⟩
  · exact .inr ⟨hcrossing, Exact.le_refl' (Exact.ne_nan_of_le hout.lower).2,
      Exact.le_trans' hout.upper (Exact.le_trans' hout.between hout.lower),
      Exact.le_refl' (Exact.ne_nan_of_le hout.upper).1⟩

/-- A variable whose local bounds are its global ones. -/
theorem placed_of_same (hlower : d.globalLb v = d.lb v) (hupper : d.globalUb v = d.ub v)
    (hallowed : Allowed crossing d.tol (d.lb v) (d.ub v) true) : d.Contained v ∨ crossing ∧ d.Crossed v := by
  rcases hallowed with hle | ⟨hcrossing, hge⟩
  · refine .inl ⟨?_, hle, ?_, fun _ => ⟨hlower.symm, hupper.symm⟩⟩
    · rw [hlower]
      exact Exact.le_refl' (Exact.ne_nan_of_le hle).1
    · rw [hupper]
      exact Exact.le_refl' (Exact.ne_nan_of_le hle).2
  · refine .inr ⟨hcrossing, ?_, hge, ?_⟩
    · rw [hlower]
      exact Exact.le_refl' (Exact.ne_nan_of_le hge).2
    · rw [hupper]
      exact Exact.le_refl' (Exact.ne_nan_of_le hge).1

theorem Placed.addVariable (h : Placed crossing d) {lower upper : Exact ℚ} (integral : Bool)
    (hallowed : Allowed crossing d.tol lower upper integral) :
    Placed crossing (d.addVariable lower upper integral).2 := by
  refine ⟨h.aligned.addVariable lower upper integral, fun w hw => ?_⟩
  have hlb := lb_addVariable lower upper integral w d
  have hub := h.aligned.ub_addVariable lower upper integral w
  have hglb := h.aligned.globalLb_addVariable lower upper integral w
  have hgub := h.aligned.globalUb_addVariable lower upper integral w
  by_cases hnew : w = d.numVars
  · rw [if_pos hnew] at hlb hub hglb hgub
    exact placed_of_same (hglb.trans hlb.symm) (hgub.trans hub.symm) (by rw [hlb, hub]; exact hallowed)
  · rw [if_neg hnew] at hlb hub hglb hgub
    have hold : w < d.numVars := by
      simp only [numVars, Domains.addVariable, Array.size_push] at hw hnew ⊢
      omega
    rcases h.placed w hold with ⟨hlower, hbetween, hupper, hroot⟩ | ⟨hcrossing, hlower, hbetween, hupper⟩
    · refine .inl ⟨?_, ?_, ?_, fun hshort => ?_⟩ <;> simp only [hlb, hub, hglb, hgub]
      · exact hlower
      · exact hbetween
      · exact hupper
      · exact hroot hshort
    · refine .inr ⟨hcrossing, ?_, ?_, ?_⟩ <;> simp only [hlb, hub, hglb, hgub]
      · exact hlower
      · exact hbetween
      · exact hupper

/-- Each part of a call keeps local domains in the global ones. -/
theorem kept_placed : KeptByCalls (Allowed crossing) (Placed crossing) where
  aligned _ h := h.aligned
  agree := placed_agree
  tighten _ _ kind value reason hv h := h.tighten hv kind value reason
  push _ node h := h.push node
  offPath _ _ h := h.offPath
  addVariable _ _ _ integral hallowed h := h.addVariable integral hallowed

theorem Built.levels_placed (h : Built (Allowed crossing) d) : Levels (Placed crossing) d := by
  induction h with
  | @new lower upper integral tol hupper hintegral hvars =>
    intro k hk
    obtain rfl : k = 0 := Nat.le_zero.mp hk
    exact ⟨⟨rfl, hupper, hupper, hintegral, nofun⟩, fun v hv => placed_of_same rfl rfl (hvars v hv)⟩
  | call _ hcall ih => exact kept_placed.levels_call ih hcall

theorem Built.placed (h : Built (Allowed crossing) d) : Placed crossing d := h.levels_placed.top

theorem Built.contained (h : Built (Allowed False) d) (hv : v < d.numVars) : d.Contained v :=
  (h.placed.placed v hv).resolve_right fun hout => hout.1

/-! ## Global domains -/

/-- The global domains of the second store lie in those of the first. -/
structure GlobalNarrows (d e : Domains (Exact ℚ)) : Prop where
  aligned : Aligned e
  numVars : d.numVars ≤ e.numVars
  lower : ∀ v < d.numVars, d.globalLb v ≤ e.globalLb v
  upper : ∀ v < d.numVars, e.globalUb v ≤ d.globalUb v

theorem GlobalNarrows.tighten (h : GlobalNarrows d e) (hv : v < e.numVars) (kind : BoundKind) (value : Exact ℚ) (reason : Reason) :
    GlobalNarrows d (e.tighten v kind value reason).2 := by
  refine tighten_keeps (I := GlobalNarrows d) h fun new _ => ?_
  refine ⟨h.aligned.record kind new reason hv, h.numVars.trans_eq (record_numVars ..).symm, fun w hw => ?_, fun w hw => ?_⟩
  · have hle := h.lower w hw
    rw [globalLb_record]
    split_ifs
    · exact Exact.le_max_of_le hle
    · exact hle
  · have hle := h.upper w hw
    rw [globalUb_record]
    split_ifs
    · exact Exact.min_le_of_le hle
    · exact hle

theorem GlobalNarrows.addVariable (h : GlobalNarrows d e) (lower upper : Exact ℚ) (integral : Bool) :
    GlobalNarrows d (e.addVariable lower upper integral).2 := by
  have hgrown := h.numVars
  refine ⟨h.aligned.addVariable lower upper integral, ?_, fun w hw => ?_, fun w hw => ?_⟩
  · simp only [Domains.numVars, Domains.addVariable, Array.size_push] at hgrown ⊢
    omega
  · rw [h.aligned.globalLb_addVariable, if_neg (hw.trans_le hgrown).ne]
    exact h.lower w hw
  · rw [h.aligned.globalUb_addVariable, if_neg (hw.trans_le hgrown).ne]
    exact h.upper w hw

/-- Each part of a call narrows global domains if it changes them. -/
theorem kept_globalNarrows (A : Exact ℚ → Exact ℚ → Exact ℚ → Bool → Prop) (d : Domains (Exact ℚ)) :
    KeptByCalls A (GlobalNarrows d) where
  aligned _ h := h.aligned
  agree e f hef h := by
    have hf := h.aligned.agree hef
    rw [hef.eq_with] at hf ⊢
    exact ⟨hf, h.numVars, h.lower, h.upper⟩
  tighten _ _ kind value reason hv h := h.tighten hv kind value reason
  push _ node h := ⟨h.aligned.push node, h.numVars, h.lower, h.upper⟩
  offPath e _ h := ⟨h.aligned.offPath, h.numVars.trans_eq h.aligned.globalLower.symm, h.lower, h.upper⟩
  addVariable _ lower upper integral _ h := h.addVariable lower upper integral

/-- Every level has the global bounds of the store. -/
theorem Built.levels_globalNarrows (h : Built (Allowed crossing) d) : Levels (GlobalNarrows d) d := by
  intro k hk
  obtain ⟨hlower, hupper⟩ := repeat_leave_global k d
  have hdefined : ∀ v < d.numVars, d.globalLb v ≠ .nan ∧ d.globalUb v ≠ .nan := fun v hv => by
    rcases h.placed.placed v hv with hin | ⟨-, hout⟩
    · exact ⟨(Exact.ne_nan_of_le hin.lower).1, (Exact.ne_nan_of_le hin.upper).2⟩
    · exact ⟨(Exact.ne_nan_of_le hout.lower).2, (Exact.ne_nan_of_le hout.upper).1⟩
  refine ⟨(h.levels_placed k hk).aligned, (repeat_leave_numVars k d).ge, fun v hv => ?_, fun v hv => ?_⟩
  · unfold globalLb
    rw [hlower]
    exact Exact.le_refl' (hdefined v hv).1
  · unfold globalUb
    rw [hupper]
    exact Exact.le_refl' (hdefined v hv).2

/-- **Local domains are never empty and lie in the global ones,** which never grow. Where
variables are created with their bounds in order, this holds after any sequence of calls,
whether moves to nodes succeed or not, and as long as no node below the root is entered
local and global bounds are the same. -/
theorem calls_contained (hd : Built (Allowed False) d) (hcalls : Calls (Allowed False) d e) :
    (∀ v < e.numVars, e.globalLb v ≤ e.lb v ∧ e.lb v ≤ e.ub v ∧ e.ub v ≤ e.globalUb v) ∧
      (e.path.length ≤ 1 → ∀ v < e.numVars, e.lb v = e.globalLb v ∧ e.ub v = e.globalUb v) ∧
      ∀ v < d.numVars, d.globalLb v ≤ e.globalLb v ∧ e.globalUb v ≤ d.globalUb v := by
  have he : Built (Allowed False) e := hd.calls hcalls
  have hnarrows : GlobalNarrows d e := ((kept_globalNarrows _ d).levels_calls hd.levels_globalNarrows hcalls).top
  refine ⟨fun v hv => ?_, fun hshort v hv => ?_, fun v hv => ⟨hnarrows.lower v hv, hnarrows.upper v hv⟩⟩
  · have hin := he.contained hv
    exact ⟨hin.lower, hin.between, hin.upper⟩
  · refine (he.contained hv).root ?_
    simpa [path] using hshort

end Domains

namespace Domains

/-- After a move that fails at depth, with a variable that is added there. -/
theorem calls_contained_failing :
    let d : Domains (Exact ℚ) := new #[.fin 0, .negInf] #[.fin 10, .posInf] #[true, false] (.fin (1 / 1000000))
    let delta : NodeId → List (BoundChange (Exact ℚ)) := fun
      | 1 => [.down 0 (.fin 10) (.fin (7 / 2)), .up 0 (.fin 0) (.fin 5)]
      | _ => []
    let tightened := (d.tighten 0 .lower (.fin 2) .formulation).2
    let moved := tightened.restore [0, 1] delta
    let grown := (moved.2.addVariable (.fin 0) (.fin 1) false).2
    let e := (grown.tighten 2 .lower (.fin (1 / 2)) .formulation).2
    moved.1 = false ∧ e.ub 0 = .fin 3 ∧ e.lb 2 = .fin (1 / 2) ∧
      (∀ v < e.numVars, e.globalLb v ≤ e.lb v ∧ e.lb v ≤ e.ub v ∧ e.ub v ≤ e.globalUb v) ∧
      ∀ v < d.numVars, d.globalLb v ≤ e.globalLb v ∧ e.globalUb v ≤ d.globalUb v := by
  intro d delta tightened moved grown e
  have hd : Built (Allowed False) d := by
    refine .new rfl rfl fun v hv => .inl ?_
    obtain rfl | rfl : v = 0 ∨ v = 1 := by
      have hlt : v < 2 := hv
      omega
    · decide +kernel
    · trivial
  have hold : 0 < d.numVars := by decide
  have htighten : Call (Allowed False) d tightened := .tighten hold .lower (.fin 2) .formulation
  have hmove : Call (Allowed False) tightened moved.2 := .restore [0, 1] (by decide +kernel)
  have hgrow : Call (Allowed False) moved.2 grown := .addVariable (.inl (by decide +kernel))
  have hnew : 2 < grown.numVars := by decide +kernel
  have hlast : Call (Allowed False) grown e := .tighten hnew .lower (.fin (1 / 2)) .formulation
  have hcalls : Calls (Allowed False) d e := (((Relation.ReflTransGen.single htighten).tail hmove).tail hgrow).tail hlast
  have hfails : moved.1 = false := by decide +kernel
  have hub : e.ub 0 = .fin 3 := by decide +kernel
  have hlb : e.lb 2 = .fin (1 / 2) := by decide +kernel
  obtain ⟨hcontained, -, hnarrows⟩ := calls_contained hd hcalls
  clear_value e moved
  exact ⟨hfails, hub, hlb, hcontained, hnarrows⟩

end Domains

end BranchAndCut

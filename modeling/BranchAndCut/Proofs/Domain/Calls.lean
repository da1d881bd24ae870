import BranchAndCut.Proofs.Domain.Levels

/-! # Calls on a store

The calls that a store answers, and how a property of all its levels is carried through
them. What a request, a new variable, entering a node and leaving the root keep, every
call keeps: leaving nodes only uncovers levels, and a new variable appears on all of
them at once. -/

namespace BranchAndCut.Domains

variable {K : Type} {d e : Domains K}

/-- The arrays have one entry for each variable, and frames are about variables that exist. -/
structure Aligned (d : Domains K) : Prop where
  globalLower : d.globalLower.size = d.lower.size
  globalUpper : d.globalUpper.size = d.lower.size
  upper : d.upper.size = d.lower.size
  integral : d.integral.size = d.lower.size
  inRange : ∀ f ∈ d.frames, ∀ c ∈ f.changes, c.var < d.numVars

theorem Aligned.agree (h : Aligned d) (hde : Agree d e) : Aligned e := by
  rw [hde.eq_with]
  exact ⟨h.globalLower, h.globalUpper, h.upper, h.integral, h.inRange⟩

theorem Aligned.push (h : Aligned d) (node : NodeId) : Aligned (d.push node) := by
  refine ⟨h.globalLower, h.globalUpper, h.upper, h.integral, fun f hf => ?_⟩
  rcases List.mem_cons.mp hf with rfl | hf
  · nofun
  · exact h.inRange f hf

theorem Aligned.offPath (h : Aligned d) : Aligned d.offPath :=
  ⟨rfl, h.globalUpper.trans h.globalLower.symm, h.globalUpper.trans h.globalLower.symm,
    h.integral.trans h.globalLower.symm, nofun⟩

/-! ## The number of variables -/

theorem revert_sizes (d : Domains K) (c : BoundChange K) :
    (revert d c).lower.size = d.lower.size ∧ (revert d c).upper.size = d.upper.size := by
  unfold revert
  cases c.kind <;> simp

theorem foldl_revert_numVars (d : Domains K) (cs : List (BoundChange K)) :
    (cs.foldl revert d).numVars = d.numVars := by
  induction cs generalizing d with
  | nil => rfl
  | cons c cs ih => exact (ih (revert d c)).trans (revert_sizes d c).1

theorem leave_numVars (d : Domains K) : d.leave.numVars = d.numVars := by
  unfold leave
  cases hd : d.frames with
  | nil => rfl
  | cons f fs => exact foldl_revert_numVars d f.changes

theorem repeat_leave_numVars (n : Nat) (d : Domains K) :
    (n.repeat leave d).numVars = d.numVars := by
  induction n with
  | zero => rfl
  | succ n ih => exact (leave_numVars _).trans ih

theorem leaveTo_numVars (h : Aligned d) (keep : Nat) : (d.leaveTo keep).numVars = d.numVars := by
  have hzero : (d.leaveTo 0).numVars = d.numVars := by
    rw [leaveTo_zero]
    exact h.globalLower
  by_cases hne : d.frames = []
  · have hsame : d.leaveTo keep = d.leaveTo 0 := by
      unfold leaveTo
      rw [hne]
      simp
    rw [hsame, hzero]
  · by_cases hpos : 0 < keep
    · rw [leaveTo_pos d hpos hne, repeat_leave_numVars]
    · obtain rfl : keep = 0 := by omega
      exact hzero

section Requests

variable [Scalar K] (d) (v : VarId) (kind : BoundKind) (value : K) (reason : Reason)

theorem record_numVars : (d.record v kind value reason).numVars = d.numVars := by
  simp only [numVars, record_lower]
  split_ifs <;> simp

theorem tighten_numVars : (d.tighten v kind value reason).2.numVars = d.numVars := by
  unfold Domains.tighten
  rcases d.judge v kind value with ⟨outcome, value'⟩
  cases outcome with
  | applied => exact record_numVars d v kind value' reason
  | _ => rfl

variable {d v} in
theorem Aligned.record (h : Aligned d) (hv : v < d.numVars) : Aligned (d.record v kind value reason) := by
  have hlower : (d.record v kind value reason).lower.size = d.lower.size := record_numVars ..
  refine ⟨?_, ?_, ?_, ?_, ?_⟩
  · rw [hlower, record_globalLower]
    split_ifs <;> simp [h.globalLower]
  · rw [hlower, record_globalUpper]
    split_ifs <;> simp [h.globalUpper]
  · rw [hlower, record_upper]
    split_ifs <;> simp [h.upper]
  · rw [hlower, record_integral, h.integral]
  · have hrange := h.inRange
    rw [record_frames, record_numVars]
    cases hd : d.frames with
    | nil => nofun
    | cons f fs =>
      rw [hd] at hrange
      intro f' hf' c hc
      rcases List.mem_cons.mp hf' with rfl | hf'
      · rcases List.mem_cons.mp hc with rfl | hc
        · exact hv
        · exact hrange f (by simp) c hc
      · exact hrange f' (by simp [hf']) c hc

end Requests

/-! ## New variables -/

theorem revert_addVariable [Scalar K] {c : BoundChange K} (hc : c.var < d.lower.size)
    (hupper : d.upper.size = d.lower.size) (lower upper : K) (integral : Bool) :
    revert (d.addVariable lower upper integral).2 c =
      ((revert d c).addVariable lower upper integral).2 := by
  unfold revert
  cases c.kind with
  | lower => simp [addVariable, Array.setIfInBounds, hc, Nat.lt_succ_of_lt hc, Array.set_push]
  | upper =>
    rw [← hupper] at hc
    simp [addVariable, Array.setIfInBounds, hc, Nat.lt_succ_of_lt hc, Array.set_push]

theorem foldl_revert_addVariable [Scalar K] {cs : List (BoundChange K)}
    (hcs : ∀ c ∈ cs, c.var < d.lower.size) (hupper : d.upper.size = d.lower.size)
    (lower upper : K) (integral : Bool) :
    cs.foldl revert (d.addVariable lower upper integral).2 =
      ((cs.foldl revert d).addVariable lower upper integral).2 := by
  induction cs generalizing d with
  | nil => rfl
  | cons c cs ih =>
    obtain ⟨hlowerSize, hupperSize⟩ := revert_sizes d c
    rw [List.foldl_cons, List.foldl_cons, revert_addVariable (hcs c (by simp)) hupper]
    refine ih (fun c' hc' => ?_) (by rw [hupperSize, hlowerSize, hupper])
    rw [hlowerSize]
    exact hcs c' (by simp [hc'])

/-- A new variable is on all levels at once. -/
theorem leave_addVariable [Scalar K] (h : Aligned d) (lower upper : K) (integral : Bool) :
    (d.addVariable lower upper integral).2.leave = (d.leave.addVariable lower upper integral).2 := by
  have hrange := h.inRange
  cases hd : d.frames with
  | nil =>
    have hd' : (d.addVariable lower upper integral).2.frames = [] := hd
    rw [leave_nil hd, leave_nil hd']
  | cons f fs =>
    have hd' : (d.addVariable lower upper integral).2.frames = f :: fs := hd
    rw [hd] at hrange
    rw [leave_cons hd, leave_cons hd', foldl_revert_addVariable (hrange f (by simp)) h.upper]
    rfl

theorem repeat_leave_addVariable [Scalar K] (h : Levels Aligned d) {n : Nat} (hn : n ≤ d.frames.length - 1)
    (lower upper : K) (integral : Bool) :
    n.repeat leave (d.addVariable lower upper integral).2 =
      ((n.repeat leave d).addVariable lower upper integral).2 := by
  induction n with
  | zero => rfl
  | succ n ih =>
    have hstep := leave_addVariable (h n (by omega)) lower upper integral
    rw [← ih (by omega)] at hstep
    exact hstep

theorem Aligned.addVariable [Scalar K] (h : Aligned d) (lower upper : K) (integral : Bool) :
    Aligned (d.addVariable lower upper integral).2 := by
  refine ⟨?_, ?_, ?_, ?_, fun f hf c hc => (h.inRange f hf c hc).trans ?_⟩ <;>
    simp [Domains.addVariable, numVars, h.globalLower, h.globalUpper, h.upper, h.integral]

section Added

variable [Scalar K] (lower upper : K) (integral : Bool) (v : VarId)

theorem lb_addVariable (d : Domains K) :
    (d.addVariable lower upper integral).2.lb v = if v = d.numVars then lower else d.lb v :=
  getD_push ..

theorem Aligned.ub_addVariable (h : Aligned d) :
    (d.addVariable lower upper integral).2.ub v = if v = d.numVars then upper else d.ub v := by
  rw [numVars, ← h.upper]
  exact getD_push ..

theorem Aligned.globalLb_addVariable (h : Aligned d) :
    (d.addVariable lower upper integral).2.globalLb v = if v = d.numVars then lower else d.globalLb v := by
  rw [numVars, ← h.globalLower]
  exact getD_push ..

theorem Aligned.globalUb_addVariable (h : Aligned d) :
    (d.addVariable lower upper integral).2.globalUb v = if v = d.numVars then upper else d.globalUb v := by
  rw [numVars, ← h.globalUpper]
  exact getD_push ..

theorem Aligned.isIntegral_addVariable (h : Aligned d) :
    (d.addVariable lower upper integral).2.isIntegral v = if v = d.numVars then integral else d.isIntegral v := by
  rw [numVars, ← h.integral]
  exact getD_push ..

end Added

/-! ## Calls -/

section Calls

variable [Scalar K] {A : K → K → K → Bool → Prop} {I : Domains K → Prop}

/-- One call on a store. `A` says, for its tolerance, which variables may be added. -/
inductive Call (A : K → K → K → Bool → Prop) (d : Domains K) : Domains K → Prop
  | addVariable {lower upper : K} {integral : Bool} (h : A d.tol lower upper integral) :
      Call A d (d.addVariable lower upper integral).2
  | tighten {v : VarId} (hv : v < d.numVars) (kind : BoundKind) (value : K) (reason : Reason) :
      Call A d (d.tighten v kind value reason).2
  | restore (target : List NodeId) {delta : NodeId → List (BoundChange K)}
      (hdelta : ∀ node ∈ target, ∀ c ∈ delta node, c.var < d.numVars) :
      Call A d (d.restore target delta).2
  | reset : Call A d d.reset
  | drainPending : Call A d d.drainPending.2
  | clearPending : Call A d d.clearPending

/-- Any number of calls, one after another. -/
def Calls (A : K → K → K → Bool → Prop) : Domains K → Domains K → Prop := Relation.ReflTransGen (Call A)

/-- Stores that calls build from one that is created with such variables. -/
inductive Built (A : K → K → K → Bool → Prop) : Domains K → Prop
  | new {lower upper : Array K} {integral : Array Bool} {tol : K} (hupper : upper.size = lower.size)
      (hintegral : integral.size = lower.size)
      (hvars : ∀ v < lower.size, A tol (lower.getD v 0) (upper.getD v 0) (integral.getD v false)) : Built A (new lower upper integral tol)
  | call {d e : Domains K} (h : Built A d) (hcall : Call A d e) : Built A e

theorem Built.calls (h : Built A d) (hcalls : Calls A d e) : Built A e := by
  induction hcalls with
  | refl => exact h
  | tail _ hcall ih => exact ih.call hcall

/-- A property of a store that each part of a call keeps. -/
structure KeptByCalls (A : K → K → K → Bool → Prop) (I : Domains K → Prop) : Prop where
  aligned : ∀ d, I d → Aligned d
  agree : ∀ d e, Agree d e → I d → I e
  tighten : ∀ d v kind value reason, v < d.numVars → I d → I (d.tighten v kind value reason).2
  push : ∀ d node, I d → I (d.push node)
  offPath : ∀ d, d.frames.length ≤ 1 → I d → I d.offPath
  addVariable : ∀ d lower upper integral, A d.tol lower upper integral → I d → I (d.addVariable lower upper integral).2

section

variable (hI : KeptByCalls A I)

include hI

theorem KeptByCalls.levels_tighten (h : Levels I d) {v : VarId} (hv : v < d.numVars) (kind : BoundKind)
    (value : K) (reason : Reason) : Levels I (d.tighten v kind value reason).2 :=
  h.of_leave hI.agree (hI.tighten d v kind value reason hv h.top)
    (d.tighten_frames_length v kind value reason)
    fun hdeep => leave_tighten hdeep v kind value reason

theorem KeptByCalls.levels_enter {acc : Bool × Domains K} (h : Levels I acc.2)
    {delta : NodeId → List (BoundChange K)} {node : NodeId}
    (hdelta : ∀ c ∈ delta node, c.var < acc.2.numVars) :
    Levels I (enter delta acc node).2 ∧ (enter delta acc node).2.numVars = acc.2.numVars := by
  have hpush : Levels I (acc.2.push node) := h.push (hI.push acc.2 node h.top)
  unfold enter
  dsimp only
  split
  · refine replay_keeps (P := fun e => Levels I e ∧ e.numVars = acc.2.numVars) ?_ ⟨hpush, rfl⟩
    intro c hc e ⟨he, hsize⟩
    exact ⟨hI.levels_tighten he (hsize ▸ hdelta c hc) c.kind c.new c.reason,
      (e.tighten_numVars c.var c.kind c.new c.reason).trans hsize⟩
  · exact ⟨hpush, rfl⟩

theorem KeptByCalls.levels_foldl_enter {delta : NodeId → List (BoundChange K)} {nodes : List NodeId}
    (acc : Bool × Domains K) (h : Levels I acc.2)
    (hdelta : ∀ node ∈ nodes, ∀ c ∈ delta node, c.var < acc.2.numVars) :
    Levels I (nodes.foldl (enter delta) acc).2 := by
  induction nodes generalizing acc with
  | nil => exact h
  | cons node nodes ih =>
    obtain ⟨hnext, hsize⟩ := hI.levels_enter h (hdelta node (by simp))
    refine ih _ hnext fun n hn c hc => ?_
    rw [hsize]
    exact hdelta n (by simp [hn]) c hc

theorem KeptByCalls.levels_restore (h : Levels I d) {target : List NodeId}
    {delta : NodeId → List (BoundChange K)}
    (hdelta : ∀ node ∈ target, ∀ c ∈ delta node, c.var < d.numVars) :
    Levels I (d.restore target delta).2 := by
  have hleft : Levels I (d.leaveTo (commonLength d.path target)) := h.leaveTo hI.offPath _
  have hfold := hI.levels_foldl_enter (true, d.leaveTo (commonLength d.path target)) hleft
    fun node (hn : node ∈ target.drop (commonLength d.path target)) c hc => by
      rw [leaveTo_numVars (hI.aligned d h.top)]
      exact hdelta node (List.mem_of_mem_drop hn) c hc
  exact hfold.agree hI.agree rfl

/-- **Every call** keeps on all levels what its parts keep on one. -/
theorem KeptByCalls.levels_call (h : Levels I d) (hcall : Call A d e) : Levels I e := by
  cases hcall with
  | addVariable hvar =>
    intro k hk
    rw [repeat_leave_addVariable (fun k hk => hI.aligned _ (h k hk)) hk]
    exact hI.addVariable _ _ _ _ (by rwa [repeat_leave_tol]) (h k hk)
  | tighten hv kind value reason => exact hI.levels_tighten h hv kind value reason
  | restore target hdelta => exact hI.levels_restore h hdelta
  | reset => exact (h.leaveTo hI.offPath 0).agree hI.agree rfl
  | drainPending => exact h.agree hI.agree rfl
  | clearPending => exact h.agree hI.agree rfl

theorem KeptByCalls.levels_calls (h : Levels I d) (hcalls : Calls A d e) : Levels I e := by
  induction hcalls with
  | refl => exact h
  | tail _ hcall ih => exact hI.levels_call ih hcall

end

end Calls

end BranchAndCut.Domains

import BranchAndCut.Proofs.Domain.Restore

/-! # Levels of a store

Leaving the nodes of the path one by one takes a store through its levels, down
to the root. A change below the root touches the topmost level only, so that a
property of all levels is kept by whatever keeps it at the top. -/

namespace BranchAndCut.Domains

variable {K : Type} {d e : Domains K} {I : Domains K → Prop}

/-- The property holds of a store and of what leaving nodes of the path makes of it,
as long as the root is not left. -/
def Levels (I : Domains K → Prop) (d : Domains K) : Prop :=
  ∀ k, k ≤ d.frames.length - 1 → I (k.repeat leave d)

theorem Levels.top (h : Levels I d) : I d := h 0 (Nat.zero_le _)

theorem leave_frames (d : Domains K) : d.leave.frames = d.frames.tail := by
  unfold leave
  cases hd : d.frames <;> simp [hd]

theorem repeat_leave_frames (n : Nat) (d : Domains K) :
    (n.repeat leave d).frames = d.frames.drop n := by
  induction n with
  | zero => rfl
  | succ n ih =>
    change (n.repeat leave d).leave.frames = _
    rw [leave_frames, ih, List.tail_drop]

theorem repeat_leave_add (m n : Nat) (d : Domains K) :
    m.repeat leave (n.repeat leave d) = (m + n).repeat leave d := by
  induction m with
  | zero => rw [Nat.zero_add]; rfl
  | succ m ih =>
    rw [Nat.succ_add]
    exact congrArg leave ih

theorem Levels.leave (h : Levels I d) (n : Nat) (hn : n ≤ d.frames.length - 1) :
    Levels I (n.repeat Domains.leave d) := by
  intro k hk
  rw [repeat_leave_frames, List.length_drop] at hk
  rw [repeat_leave_add]
  exact h (k + n) (by omega)

/-- A store whose lower levels are those of another, up to pending changes. -/
theorem Levels.of_leave (hagree : ∀ d e, Agree d e → I d → I e) (h : Levels I d) (htop : I e)
    (hlength : e.frames.length = d.frames.length)
    (hleave : 2 ≤ d.frames.length → Agree e.leave d.leave) : Levels I e := by
  intro k hk
  cases k with
  | zero => exact htop
  | succ k =>
    rw [hlength] at hk
    have hbelow := h (k + 1) hk
    rw [repeat_leave_succ] at hbelow ⊢
    exact hagree _ _ ((hleave (by omega)).repeat_leave k).symm hbelow

theorem Levels.agree (hagree : ∀ d e, Agree d e → I d → I e) (h : Levels I d) (hde : Agree d e) :
    Levels I e :=
  h.of_leave hagree (hagree _ _ hde h.top) (by rw [hde.frames]) fun _ => hde.leave.symm

/-- Puts a node on top of the path. -/
def push (d : Domains K) (node : NodeId) : Domains K := { d with frames := { node } :: d.frames }

theorem leave_push (d : Domains K) (node : NodeId) : (d.push node).leave = d := rfl

theorem Levels.push (h : Levels I d) {node : NodeId} (htop : I (d.push node)) :
    Levels I (d.push node) := by
  intro k hk
  cases k with
  | zero => exact htop
  | succ k =>
    rw [repeat_leave_succ, leave_push]
    exact h k (by simp [Domains.push] at hk; omega)

theorem foldl_revert_global (d : Domains K) (cs : List (BoundChange K)) :
    ∃ lower upper, cs.foldl revert d = { d with lower, upper } := by
  induction cs generalizing d with
  | nil => exact ⟨d.lower, d.upper, rfl⟩
  | cons c cs ih =>
    obtain ⟨lower, upper, h⟩ := ih (revert d c)
    rw [List.foldl_cons, h]
    unfold revert
    cases c.kind <;> exact ⟨_, _, rfl⟩

theorem repeat_leave_tol (n : Nat) (d : Domains K) : (n.repeat leave d).tol = d.tol := by
  induction n with
  | zero => rfl
  | succ n ih =>
    refine Eq.trans ?_ ih
    change (n.repeat leave d).leave.tol = _
    cases hd : (n.repeat leave d).frames with
    | nil => rw [leave_nil hd]
    | cons f fs =>
      obtain ⟨lower, upper, hrev⟩ := foldl_revert_global (n.repeat leave d) f.changes
      rw [leave_cons hd, hrev]

/-- Off the path: local bounds are the global ones. -/
def offPath (d : Domains K) : Domains K :=
  { d with lower := d.globalLower, upper := d.globalUpper, frames := [] }

theorem offPath_leave (d : Domains K) : d.leave.offPath = d.offPath := by
  unfold leave
  cases hd : d.frames with
  | nil => rfl
  | cons f fs =>
    obtain ⟨lower, upper, hrev⟩ := foldl_revert_global d f.changes
    simp [offPath, hrev]

theorem offPath_repeat_leave (n : Nat) (d : Domains K) :
    (n.repeat leave d).offPath = d.offPath := by
  induction n with
  | zero => rfl
  | succ n ih => exact (offPath_leave _).trans ih

theorem repeat_leave_global (n : Nat) (d : Domains K) :
    (n.repeat leave d).globalLower = d.globalLower ∧ (n.repeat leave d).globalUpper = d.globalUpper := by
  have hoff := offPath_repeat_leave n d
  have hlower : (n.repeat leave d).offPath.globalLower = d.offPath.globalLower := by rw [hoff]
  have hupper : (n.repeat leave d).offPath.globalUpper = d.offPath.globalUpper := by rw [hoff]
  exact ⟨hlower, hupper⟩

/-- Leaving all nodes ends at the global bounds. -/
theorem leaveTo_zero (d : Domains K) : d.leaveTo 0 = d.offPath := by
  have hlength : (d.frames.length.repeat leave d).frames = [] := by
    rw [repeat_leave_frames]
    simp
  unfold leaveTo
  simp only [Nat.sub_zero]
  rw [if_pos (by rw [hlength]; rfl), ← offPath_repeat_leave d.frames.length]
  simp only [offPath, hlength]

/-- Leaving nodes but not the root. -/
theorem leaveTo_pos (d : Domains K) {keep : Nat} (hpos : 0 < keep) (hne : d.frames ≠ []) :
    d.leaveTo keep = (d.frames.length - keep).repeat leave d := by
  have hlength := List.length_pos_of_ne_nil hne
  unfold leaveTo
  dsimp only
  rw [if_neg]
  rw [repeat_leave_frames, List.isEmpty_iff, List.drop_eq_nil_iff]
  omega

theorem leaveTo_frames (d : Domains K) (keep : Nat) :
    (d.leaveTo keep).frames = d.frames.drop (d.frames.length - keep) := by
  have h := repeat_leave_frames (d.frames.length - keep) d
  unfold leaveTo
  dsimp only
  split
  · exact h
  · exact h

theorem leaveTo_path (d : Domains K) (keep : Nat) : (d.leaveTo keep).path = d.path.take keep := by
  unfold path
  rw [leaveTo_frames, List.map_drop, List.reverse_drop, List.length_map]
  by_cases hle : keep ≤ d.frames.length
  · rw [Nat.sub_sub_self hle]
  · have hall : d.frames.length - keep = 0 := by omega
    rw [hall, Nat.sub_zero, List.take_of_length_le (by simp), List.take_of_length_le]
    simp only [List.length_reverse, List.length_map]
    omega

theorem Agree.path (h : Agree d e) : e.path = d.path := congrArg (fun frames => (frames.map Frame.node).reverse) h.frames.symm

/-- The path after a move. -/
theorem restore_path [Scalar K] (d : Domains K) (target : List NodeId) (delta : NodeId → List (BoundChange K)) :
    (d.restore target delta).2.path = target := by
  have hleft := leaveTo_path d (commonLength d.path target)
  rw [take_commonLength] at hleft
  change (List.foldl (enter delta) (true, d.leaveTo (commonLength d.path target))
    (target.drop (commonLength d.path target))).2.path = target
  unfold path at hleft ⊢
  rw [foldl_enter_nodes, List.reverse_append, List.reverse_reverse, hleft, List.take_append_drop]

theorem Levels.leaveTo (hoff : ∀ d, d.frames.length ≤ 1 → I d → I d.offPath) (h : Levels I d)
    (keep : Nat) : Levels I (d.leaveTo keep) := by
  have hbottom : Levels I ((d.frames.length - 1).repeat Domains.leave d) :=
    h.leave _ (Nat.le_refl _)
  have hone : ((d.frames.length - 1).repeat Domains.leave d).frames.length ≤ 1 := by
    rw [repeat_leave_frames, List.length_drop]
    omega
  have hzero : Levels I (d.leaveTo 0) := by
    rw [leaveTo_zero, ← offPath_repeat_leave (d.frames.length - 1)]
    intro k hk
    simp only [offPath, List.length_nil] at hk
    obtain rfl : k = 0 := by omega
    exact hoff _ hone hbottom.top
  by_cases hne : d.frames = []
  · have hsame : d.leaveTo keep = d.leaveTo 0 := by
      unfold Domains.leaveTo
      rw [hne]
      simp
    rw [hsame]
    exact hzero
  · by_cases hpos : 0 < keep
    · rw [leaveTo_pos d hpos hne]
      exact h.leave _ (by omega)
    · obtain rfl : keep = 0 := by omega
      exact hzero

/-! ## Properties kept by requests -/

section Requests

variable [Scalar K]

/-- One step of propagation on a store: a request for a bound, or a change of what is
pending. -/
inductive Move : Domains K → Domains K → Prop
  | request (d : Domains K) (v : VarId) (kind : BoundKind) (value : K) (reason : Reason) :
      Move d (d.tighten v kind value reason).2
  | agree {d e : Domains K} (h : Agree d e) : Move d e

/-- The second store comes from the first by requests. -/
def Moves : Domains K → Domains K → Prop := Relation.ReflTransGen Move

/-- A property of a store that is kept by requests, and by entering and leaving nodes. -/
structure Kept (I : Domains K → Prop) : Prop where
  agree : ∀ d e, Agree d e → I d → I e
  tighten : ∀ d v kind value reason, I d → I (d.tighten v kind value reason).2
  push : ∀ d node, I d → I (d.push node)
  offPath : ∀ d, d.frames.length ≤ 1 → I d → I d.offPath

variable (hI : Kept I)

include hI

theorem Levels.tighten (h : Levels I d) (v : VarId) (kind : BoundKind) (value : K) (reason : Reason) :
    Levels I (d.tighten v kind value reason).2 :=
  h.of_leave hI.agree (hI.tighten d v kind value reason h.top) (d.tighten_frames_length v kind value reason)
    fun hdeep => leave_tighten hdeep v kind value reason

theorem Levels.moves (h : Levels I d) (hde : d.Moves e) : Levels I e := by
  induction hde with
  | refl => exact h
  | tail _ hmove ih =>
    cases hmove with
    | request v kind value reason => exact ih.tighten hI v kind value reason
    | agree hagree => exact ih.agree hI.agree hagree

theorem Levels.enter {acc : Bool × Domains K} (h : Levels I acc.2) (delta : NodeId → List (BoundChange K))
    (node : NodeId) : Levels I (Domains.enter delta acc node).2 := by
  have hpush : Levels I (acc.2.push node) := h.push (hI.push acc.2 node h.top)
  unfold Domains.enter
  dsimp only
  split
  · exact replay_keeps (fun c _ e he => Levels.tighten hI he c.var c.kind c.new c.reason) hpush
  · exact hpush

theorem Levels.foldl_enter {acc : Bool × Domains K} (h : Levels I acc.2) (delta : NodeId → List (BoundChange K))
    (nodes : List NodeId) : Levels I (nodes.foldl (Domains.enter delta) acc).2 := by
  induction nodes generalizing acc with
  | nil => exact h
  | cons node nodes ih => exact ih (Levels.enter hI h delta node)

/-- **Switching the path** keeps what requests keep. -/
theorem Levels.restore (h : Levels I d) (target : List NodeId) (delta : NodeId → List (BoundChange K)) :
    Levels I (d.restore target delta).2 := by
  have hleft : Levels I (d.leaveTo (commonLength d.path target)) := h.leaveTo hI.offPath _
  have hentered : Levels I ((target.drop (commonLength d.path target)).foldl (Domains.enter delta)
      (true, d.leaveTo (commonLength d.path target))).2 := Levels.foldl_enter hI hleft delta _
  exact hentered.agree hI.agree rfl

end Requests

end BranchAndCut.Domains

import BranchAndCut.Proofs.Arrays
import BranchAndCut.Proofs.Exact
import BranchAndCut.Domain.Store

/-! # Restoring the path to a node

Moving from one node to another undoes the frames that the two paths do not
share and replays the rest. Below the root this is exact: a frame remembers the
bounds that it overwrote, so that leaving it gives the store before it was
entered, up to the changes not yet propagated. The store at a node is therefore
the one reached from an empty path, whichever nodes were visited in between. -/

namespace BranchAndCut.Domains

variable {K : Type} {d e : Domains K}

/-! ## Pending changes do not matter -/

/-- Stores that differ in the pending changes only. -/
def Agree (d e : Domains K) : Prop := d.clearPending = e.clearPending

theorem Agree.eq_with (h : Agree d e) : e = { d with pending := e.pending } := by
  cases d; cases e
  simp only [Agree, clearPending, mk.injEq] at h ⊢
  obtain ⟨rfl, rfl, rfl, rfl, rfl, rfl, -, rfl, rfl⟩ := h
  simp

theorem agree_clearPending (d : Domains K) : Agree d.clearPending d := rfl

theorem Agree.frames (h : Agree d e) : d.frames = e.frames := by rw [h.eq_with]

/-- Reverting changes reads and writes the local bounds only. -/
theorem foldl_revert_with (d : Domains K) (cs : List (BoundChange K)) (fs : List (Frame K))
    (p : List (VarId × BoundKind)) :
    cs.foldl revert { d with frames := fs, pending := p } =
      { cs.foldl revert d with frames := fs, pending := p } := by
  induction cs generalizing d with
  | nil => rfl
  | cons c cs ih =>
    have hstep : revert { d with frames := fs, pending := p } c =
        { revert d c with frames := fs, pending := p } := by
      unfold revert
      cases c.kind <;> rfl
    rw [List.foldl_cons, List.foldl_cons, hstep, ih]

theorem leave_nil (hd : d.frames = []) : d.leave = d := by
  unfold leave
  rw [hd]

theorem leave_cons {f : Frame K} {fs : List (Frame K)} (hd : d.frames = f :: fs) :
    d.leave = { f.changes.foldl revert d with frames := fs } := by
  unfold leave
  rw [hd]

theorem Agree.leave (h : Agree d e) : Agree d.leave e.leave := by
  rw [h.eq_with]
  unfold Domains.leave
  cases hd : d.frames with
  | nil => simp [Agree, clearPending, hd]
  | cons f fs =>
    have hrev := foldl_revert_with d f.changes d.frames e.pending
    rw [hd] at hrev
    simp only [Agree, clearPending, hrev]

/-- Leaving one more node first. -/
theorem repeat_leave_succ (n : Nat) (d : Domains K) :
    (n + 1).repeat leave d = n.repeat leave d.leave := by
  induction n with
  | zero => rfl
  | succ n ih => exact congrArg leave ih

theorem Agree.repeat_leave (h : Agree d e) (n : Nat) :
    Agree (n.repeat Domains.leave d) (n.repeat Domains.leave e) := by
  induction n with
  | zero => exact h
  | succ n ih => exact ih.leave

theorem Agree.leaveTo (h : Agree d e) (keep : Nat) : Agree (d.leaveTo keep) (e.leaveTo keep) := by
  have hrep := h.repeat_leave (d.frames.length - keep)
  unfold Domains.leaveTo
  rw [← h.frames]
  dsimp only
  rw [← hrep.frames]
  split
  · rw [hrep.eq_with]
    rfl
  · exact hrep

theorem leaveTo_zero_frames (hd : d.frames = []) : (d.leaveTo 0).frames = [] := by
  simp [Domains.leaveTo, hd, Nat.repeat]

variable [Scalar K] {delta : NodeId → List (BoundChange K)}

theorem Agree.record (h : Agree d e) (v : VarId) (kind : BoundKind) (value : K) (reason : Reason) :
    Agree (d.record v kind value reason) (e.record v kind value reason) := by
  rw [h.eq_with]
  by_cases hroot : d.frames.length ≤ 1 <;> cases kind <;>
    simp [Agree, Domains.record, atRoot, lb, ub, clearPending, hroot]

theorem Agree.judge (h : Agree d e) (v : VarId) (kind : BoundKind) (value : K) :
    d.judge v kind value = e.judge v kind value := by
  rw [h.eq_with]
  rfl

theorem Agree.tighten (h : Agree d e) (v : VarId) (kind : BoundKind) (value : K) (reason : Reason) :
    (d.tighten v kind value reason).1 = (e.tighten v kind value reason).1 ∧
      Agree (d.tighten v kind value reason).2 (e.tighten v kind value reason).2 := by
  unfold Domains.tighten
  rw [← h.judge]
  rcases d.judge v kind value with ⟨outcome, value⟩
  cases outcome with
  | applied => exact ⟨rfl, h.record v kind value reason⟩
  | redundant => exact ⟨rfl, h⟩
  | infeasible => exact ⟨rfl, h⟩

theorem Agree.replay (h : Agree d e) (cs : List (BoundChange K)) :
    (d.replay cs).1 = (e.replay cs).1 ∧ Agree (d.replay cs).2 (e.replay cs).2 := by
  induction cs generalizing d e with
  | nil => exact ⟨rfl, h⟩
  | cons c cs ih =>
    obtain ⟨hout, hagree⟩ := h.tighten c.var c.kind c.new c.reason
    unfold Domains.replay
    rcases hd : d.tighten c.var c.kind c.new c.reason with ⟨outcome, d'⟩
    rcases he : e.tighten c.var c.kind c.new c.reason with ⟨outcome', e'⟩
    rw [hd, he] at hout hagree
    simp only at hout hagree
    subst hout
    cases outcome with
    | infeasible => exact ⟨rfl, hagree⟩
    | applied => exact ih hagree
    | redundant => exact ih hagree

variable (delta) in
theorem Agree.enter (h : Agree d e) (b : Bool) (node : NodeId) :
    (enter delta (b, d) node).1 = (enter delta (b, e) node).1 ∧
      Agree (enter delta (b, d) node).2 (enter delta (b, e) node).2 := by
  have hpush : Agree { d with frames := { node } :: d.frames }
      { e with frames := { node } :: e.frames } := by
    rw [h.eq_with]
    rfl
  cases b with
  | false => exact ⟨rfl, hpush⟩
  | true => exact hpush.replay (delta node)

variable (delta) in
theorem Agree.foldl_enter (h : Agree d e) (b : Bool) (nodes : List NodeId) :
    (nodes.foldl (Domains.enter delta) (b, d)).1 = (nodes.foldl (Domains.enter delta) (b, e)).1 ∧
      Agree (nodes.foldl (Domains.enter delta) (b, d)).2
        (nodes.foldl (Domains.enter delta) (b, e)).2 := by
  induction nodes generalizing d e b with
  | nil => exact ⟨rfl, h⟩
  | cons n ns ih =>
    obtain ⟨hb, hagree⟩ := h.enter delta b n
    rcases hd : Domains.enter delta (b, d) n with ⟨b', d'⟩
    rcases he : Domains.enter delta (b, e) n with ⟨b'', e'⟩
    rw [hd, he] at hb hagree
    simp only at hb hagree
    subst hb
    simp only [List.foldl_cons, hd, he]
    exact ih hagree b'

/-! ## Leaving undoes entering -/

theorem setIfInBounds_self (a : Array K) (v : VarId) :
    a.setIfInBounds v (a[v]?.getD 0) = a := by
  by_cases h : v < a.size
  · simp [Array.setIfInBounds, h]
  · simp [Array.setIfInBounds, h]

/-- The current value of a bound. -/
def bound (d : Domains K) (v : VarId) : BoundKind → K
  | .lower => d.lb v
  | .upper => d.ub v

section Record

variable (d : Domains K) (v : VarId) (kind : BoundKind) (value : K) (reason : Reason)

attribute [local simp] Domains.record

@[simp] theorem record_lower : (d.record v kind value reason).lower =
    if kind = .lower then d.lower.setIfInBounds v value else d.lower := by
  cases kind <;> simp only [Domains.record] <;> split <;> rfl

@[simp] theorem record_upper : (d.record v kind value reason).upper =
    if kind = .upper then d.upper.setIfInBounds v value else d.upper := by
  cases kind <;> simp only [Domains.record] <;> split <;> rfl

@[simp] theorem record_globalLower : (d.record v kind value reason).globalLower =
    if kind = .lower ∧ d.atRoot = true then d.globalLower.modify v (Scalar.max · value)
    else d.globalLower := by
  cases kind <;> cases h : d.atRoot <;> simp [h]

@[simp] theorem record_globalUpper : (d.record v kind value reason).globalUpper =
    if kind = .upper ∧ d.atRoot = true then d.globalUpper.modify v (Scalar.min · value)
    else d.globalUpper := by
  cases kind <;> cases h : d.atRoot <;> simp [h]

@[simp] theorem record_integral : (d.record v kind value reason).integral = d.integral := by
  cases kind <;> simp only [Domains.record] <;> split <;> rfl

@[simp] theorem record_tol : (d.record v kind value reason).tol = d.tol := by
  cases kind <;> simp only [Domains.record] <;> split <;> rfl

@[simp] theorem record_emptyDomains :
    (d.record v kind value reason).emptyDomains = d.emptyDomains := by
  cases kind <;> simp only [Domains.record] <;> split <;> rfl

theorem record_frames : (d.record v kind value reason).frames =
    match d.frames with
    | [] => []
    | f :: fs => { f with changes := ⟨v, kind, d.bound v kind, value, reason⟩ :: f.changes } :: fs := by
  cases kind <;> cases hroot : d.atRoot <;> cases hd : d.frames <;>
    simp [bound, hroot, hd]

theorem lb_record (w : VarId) : (d.record v kind value reason).lb w =
    if kind = .lower ∧ w = v ∧ v < d.lower.size then value else d.lb w := by
  unfold lb
  cases kind <;> simp only [record_lower, getD_setIfInBounds, if_true, true_and, reduceCtorEq,
    false_and, if_false]

theorem ub_record (w : VarId) : (d.record v kind value reason).ub w =
    if kind = .upper ∧ w = v ∧ v < d.upper.size then value else d.ub w := by
  unfold ub
  cases kind <;> simp only [record_upper, getD_setIfInBounds, if_true, true_and, reduceCtorEq,
    false_and, if_false]

theorem globalLb_record (w : VarId) : (d.record v kind value reason).globalLb w =
    if kind = .lower ∧ d.atRoot = true ∧ w = v ∧ v < d.globalLower.size then
      Scalar.max (d.globalLb w) value else d.globalLb w := by
  unfold globalLb
  cases kind <;> cases hroot : d.atRoot <;> simp only [record_globalLower, hroot, getD_modify,
    if_true, true_and, reduceCtorEq, false_and, and_false, if_false, Bool.false_eq_true]

theorem globalUb_record (w : VarId) : (d.record v kind value reason).globalUb w =
    if kind = .upper ∧ d.atRoot = true ∧ w = v ∧ v < d.globalUpper.size then
      Scalar.min (d.globalUb w) value else d.globalUb w := by
  unfold globalUb
  cases kind <;> cases hroot : d.atRoot <;> simp only [record_globalUpper, hroot, getD_modify,
    if_true, true_and, reduceCtorEq, false_and, and_false, if_false, Bool.false_eq_true]

end Record

/-- Below the root a change overwrites one local bound and nothing else. -/
theorem revert_record (hdeep : 2 ≤ d.frames.length) (v : VarId) (kind : BoundKind) (value : K)
    (reason : Reason) :
    revert (d.record v kind value reason) ⟨v, kind, d.bound v kind, value, reason⟩ =
      { d with
        frames := (d.record v kind value reason).frames
        pending := (d.record v kind value reason).pending } := by
  have hroot : ¬ d.frames.length ≤ 1 := by omega
  cases kind <;>
    simp [Domains.record, revert, atRoot, hroot, bound, lb, ub, setIfInBounds_self]

/-- Below the root leaving forgets a change just recorded. -/
theorem leave_record (hdeep : 2 ≤ d.frames.length) (v : VarId) (kind : BoundKind) (value : K)
    (reason : Reason) : Agree (d.record v kind value reason).leave d.leave := by
  have hrev := revert_record hdeep v kind value reason
  have hframes := d.record_frames v kind value reason
  unfold leave
  cases hd : d.frames with
  | nil => simp [hd] at hdeep
  | cons f fs =>
    rw [hd] at hframes
    simp only [hframes, List.foldl_cons, hrev, foldl_revert_with]
    simp [Agree, clearPending]

theorem leave_tighten (hdeep : 2 ≤ d.frames.length) (v : VarId) (kind : BoundKind) (value : K)
    (reason : Reason) : Agree (d.tighten v kind value reason).2.leave d.leave := by
  unfold tighten
  rcases d.judge v kind value with ⟨outcome, value⟩
  cases outcome with
  | applied => exact leave_record hdeep v kind value reason
  | redundant => rfl
  | infeasible => rfl

/-! ## The path of a store -/

theorem record_nodes (v : VarId) (kind : BoundKind) (value : K) (reason : Reason) :
    (d.record v kind value reason).frames.map Frame.node = d.frames.map Frame.node := by
  rw [record_frames]
  cases d.frames <;> rfl

theorem tighten_nodes (v : VarId) (kind : BoundKind) (value : K) (reason : Reason) :
    (d.tighten v kind value reason).2.frames.map Frame.node = d.frames.map Frame.node := by
  unfold tighten
  rcases d.judge v kind value with ⟨outcome, value⟩
  cases outcome with
  | applied => exact record_nodes v kind value reason
  | redundant => rfl
  | infeasible => rfl

theorem tighten_frames_length (v : VarId) (kind : BoundKind) (value : K) (reason : Reason) :
    (d.tighten v kind value reason).2.frames.length = d.frames.length := by
  simpa using congrArg List.length (d.tighten_nodes v kind value reason)

/-- What the requests of a replay keep, the replay keeps. -/
theorem replay_keeps {P : Domains K → Prop} {cs : List (BoundChange K)}
    (hstep : ∀ c ∈ cs, ∀ e, P e → P (e.tighten c.var c.kind c.new c.reason).2) (h : P d) :
    P (d.replay cs).2 := by
  induction cs generalizing d with
  | nil => exact h
  | cons c cs ih =>
    have hnext := hstep c (by simp) d h
    have hrest : ∀ c ∈ cs, ∀ e, P e → P (e.tighten c.var c.kind c.new c.reason).2 :=
      fun c hc => hstep c (by simp [hc])
    unfold replay
    cases ht : d.tighten c.var c.kind c.new c.reason with
    | mk outcome e =>
      rw [ht] at hnext
      cases outcome with
      | infeasible => exact hnext
      | _ => exact ih hrest hnext

theorem replay_nodes (cs : List (BoundChange K)) :
    (d.replay cs).2.frames.map Frame.node = d.frames.map Frame.node :=
  replay_keeps (P := fun e => e.frames.map Frame.node = d.frames.map Frame.node)
    (fun c _ e h => (e.tighten_nodes c.var c.kind c.new c.reason).trans h) rfl

theorem leave_replay (hdeep : 2 ≤ d.frames.length) (cs : List (BoundChange K)) :
    Agree (d.replay cs).2.leave d.leave := by
  refine (replay_keeps (P := fun e => 2 ≤ e.frames.length ∧ Agree e.leave d.leave) ?_
    ⟨hdeep, rfl⟩).2
  intro c _ e ⟨he, hagree⟩
  rw [tighten_frames_length]
  exact ⟨he, (leave_tighten he c.var c.kind c.new c.reason).trans hagree⟩

theorem enter_nodes (acc : Bool × Domains K) (node : NodeId) :
    (enter delta acc node).2.frames.map Frame.node = node :: acc.2.frames.map Frame.node := by
  unfold enter
  dsimp only
  split
  · rw [replay_nodes]
    rfl
  · rfl

theorem foldl_enter_nodes (acc : Bool × Domains K) (nodes : List NodeId) :
    (nodes.foldl (enter delta) acc).2.frames.map Frame.node =
      nodes.reverse ++ acc.2.frames.map Frame.node := by
  induction nodes generalizing acc with
  | nil => rfl
  | cons n ns ih => simp [ih, enter_nodes]

variable (delta) in
/-- Below the root leaving a node just entered gives the store before. -/
theorem leave_enter (acc : Bool × Domains K) (hframes : acc.2.frames ≠ []) (node : NodeId) :
    Agree (enter delta acc node).2.leave acc.2 := by
  have hlength : 0 < acc.2.frames.length := List.length_pos_of_ne_nil hframes
  unfold enter
  dsimp only
  split
  · exact leave_replay (by simpa [Nat.succ_le_iff] using hlength) _
  · rfl

theorem enter_feasible {acc : Bool × Domains K} {node : NodeId}
    (h : (enter delta acc node).1 = true) : acc.1 = true := by
  unfold enter at h
  by_contra hacc
  simp [hacc] at h

theorem foldl_enter_feasible {acc : Bool × Domains K} {nodes : List NodeId}
    (h : (nodes.foldl (enter delta) acc).1 = true) : acc.1 = true := by
  induction nodes generalizing acc with
  | nil => exact h
  | cons n ns ih => exact enter_feasible (ih h)

/-! ## Arriving from an empty path -/

/-- Enters all nodes of a target from an empty path. -/
def arrive (delta : NodeId → List (BoundChange K)) (d : Domains K) (target : List NodeId) :
    Bool × Domains K := target.foldl (enter delta) (true, d.leaveTo 0)

theorem restore_of_empty (hd : d.frames = []) (target : List NodeId) :
    d.restore target delta = ((arrive delta d target).1, (arrive delta d target).2.clearPending) := by
  have hcommon : commonLength d.path target = 0 := by
    simp [path, hd, commonLength]
  simp only [restore, hcommon, List.drop_zero, arrive]

variable (delta) in
theorem arrive_path (hd : d.frames = []) (target : List NodeId) :
    (arrive delta d target).2.path = target := by
  unfold path arrive
  rw [foldl_enter_nodes, leaveTo_zero_frames hd]
  simp

theorem arrive_append (nodes nodes' : List NodeId) :
    arrive delta d (nodes ++ nodes') = nodes'.foldl (enter delta) (arrive delta d nodes) :=
  List.foldl_append

variable (delta) in
/-- Leaving nodes takes a store back to where a shorter path arrived, as long as
the root is not left. -/
theorem repeat_leave_arrive (hd : d.frames = []) {head : List NodeId} (hhead : head ≠ [])
    (tail : List NodeId) :
    Agree (tail.length.repeat leave (arrive delta d (head ++ tail)).2) (arrive delta d head).2 := by
  induction tail using List.reverseRecOn with
  | nil =>
    rw [List.append_nil]
    rfl
  | append_singleton tail node ih =>
    have hpath := arrive_path delta hd (head ++ tail)
    have hframes : (arrive delta d (head ++ tail)).2.frames ≠ [] := by
      intro hnil
      simp [path, hnil, hhead] at hpath
    have hleave := leave_enter delta (arrive delta d (head ++ tail)) hframes node
    rw [List.length_append, List.length_singleton, repeat_leave_succ, ← List.append_assoc,
      arrive_append]
    exact (hleave.repeat_leave tail.length).trans ih

variable (delta) in
theorem leaveTo_arrive (hd : d.frames = []) {head : List NodeId} (hhead : head ≠ [])
    (tail : List NodeId) :
    Agree ((arrive delta d (head ++ tail)).2.leaveTo head.length) (arrive delta d head).2 := by
  have hpath := arrive_path delta hd (head ++ tail)
  have hlength : (arrive delta d (head ++ tail)).2.frames.length - head.length = tail.length := by
    have := congrArg List.length hpath
    simp only [path, List.length_reverse, List.length_map, List.length_append] at this
    omega
  have hagree := repeat_leave_arrive delta hd hhead tail
  have hframes : (tail.length.repeat leave (arrive delta d (head ++ tail)).2).frames ≠ [] := by
    rw [hagree.frames]
    intro hnil
    have := arrive_path delta hd head
    simp [path, hnil, hhead.symm] at this
  unfold leaveTo
  simp only [hlength, List.isEmpty_iff, hframes, if_false]
  exact hagree

/-! ## Independence of the history -/

theorem take_commonLength (as bs : List NodeId) :
    as.take (commonLength as bs) = bs.take (commonLength as bs) := by
  induction as generalizing bs with
  | nil => cases bs <;> rfl
  | cons a as ih =>
    cases bs with
    | nil => rfl
    | cons b bs =>
      unfold commonLength
      split
      · next h => simp [h, ih]
      · rfl

theorem commonLength_le (as bs : List NodeId) : commonLength as bs ≤ as.length := by
  induction as generalizing bs with
  | nil => cases bs <;> simp [commonLength]
  | cons a as ih =>
    cases bs with
    | nil => simp [commonLength]
    | cons b bs =>
      unfold commonLength
      split
      · simpa using ih bs
      · simp

theorem commonLength_pos {as bs : List NodeId} {root : NodeId} (has : as.head? = some root)
    (hbs : bs.head? = some root) : 0 < commonLength as bs := by
  cases as <;> cases bs <;> simp_all [commonLength]

/-- Coming from a feasible node of the same tree is as good as coming from an empty path. -/
theorem restore_eq_of_arrived (hd : d.frames = []) {root : NodeId} {source target : List NodeId}
    (hsource : source.head? = some root) (htarget : target.head? = some root)
    (hok : (arrive delta d source).1 = true) (he : Agree e (arrive delta d source).2) :
    e.restore target delta = d.restore target delta := by
  have hpath : e.path = source := by
    rw [path, he.frames]
    exact arrive_path delta hd source
  set k := commonLength source target with hk
  have hpos : 0 < k := commonLength_pos hsource htarget
  have hlength : (source.take k).length = k := by
    simpa using commonLength_le source target
  have hhead : source.take k ≠ [] := List.ne_nil_of_length_pos (by omega)
  have hleft : Agree (e.leaveTo k) (arrive delta d (source.take k)).2 := by
    have := leaveTo_arrive delta hd hhead (source.drop k)
    rw [List.take_append_drop, hlength] at this
    exact (he.leaveTo k).trans this
  have hfeasible : (arrive delta d (source.take k)).1 = true := by
    rw [← List.take_append_drop k source, arrive_append] at hok
    exact foldl_enter_feasible hok
  have hreplay := hleft.foldl_enter delta true (target.drop k)
  have harrive : arrive delta d target =
      (target.drop k).foldl (enter delta) (true, (arrive delta d (source.take k)).2) := by
    conv_lhs => rw [← List.take_append_drop k target, ← take_commonLength, ← hk, arrive_append]
    rw [← hfeasible]
  rw [restore_of_empty hd, harrive]
  simp only [restore, hpath, ← hk]
  exact Prod.ext hreplay.1 hreplay.2

/-- The answers and stores of restoring several targets one after another. -/
def visits (delta : NodeId → List (BoundChange K)) (d : Domains K) :
    List (List NodeId) → List (Bool × Domains K)
  | [] => []
  | target :: targets =>
    d.restore target delta :: visits delta (d.restore target delta).2 targets

theorem visits_eq_map (hd : d.frames = []) {root : NodeId} {targets : List (List NodeId)}
    (htargets : ∀ target ∈ targets, target.head? = some root)
    (he : ∀ target, target.head? = some root → e.restore target delta = d.restore target delta)
    (hok : ∀ outcome ∈ visits delta e targets, outcome.1 = true) :
    visits delta e targets = targets.map fun target => d.restore target delta := by
  induction targets generalizing e with
  | nil => rfl
  | cons target targets ih =>
    have hhead := htargets target (by simp)
    have hfirst := he target hhead
    unfold visits at hok ⊢
    rw [hfirst] at hok ⊢
    have hfeasible : (arrive delta d target).1 = true := by
      have := hok (d.restore target delta) (by simp)
      rwa [restore_of_empty hd] at this
    have hagree : Agree (d.restore target delta).2 (arrive delta d target).2 := by
      rw [restore_of_empty hd]
      exact agree_clearPending _
    rw [ih (fun t ht => htargets t (by simp [ht]))
      (fun t ht => restore_eq_of_arrived hd hhead ht hfeasible hagree)
      (fun outcome h => hok outcome (by simp [h]))]
    rfl

/-- **The store at a node does not depend on the nodes visited before.** Restoring
targets one after another, all feasible and below one root, gives at each of them
the store that a single restore from the empty path gives: bounds, depth, focus
and frames. -/
theorem visits_eq_map_restore (hd : d.frames = []) {root : NodeId} {targets : List (List NodeId)}
    (htargets : ∀ target ∈ targets, target.head? = some root)
    (hok : ∀ outcome ∈ visits delta d targets, outcome.1 = true) :
    visits delta d targets = targets.map fun target => d.restore target delta :=
  visits_eq_map hd htargets (fun _ _ => rfl) hok

/-- The way from one child of the root to the other, with a redundant change and
a bound of an integral variable that is rounded. -/
theorem visits_of_siblings :
    let d : Domains (Exact ℚ) := new #[0, 0] #[.fin 4, .posInf] #[true, false] (.fin (1 / 1000))
    let delta : NodeId → List (BoundChange (Exact ℚ)) := fun
      | 0 => [.lower 1 0 (.fin 1)]
      | 1 => [.upper 0 (.fin 4) (.fin (5 / 2)), .upper 0 (.fin 4) (.fin 3)]
      | _ => [.lower 0 0 (.fin (5 / 2))]
    visits delta d [[0], [0, 1], [0, 2]] =
      [[0], [0, 1], [0, 2]].map fun target => d.restore target delta :=
  visits_eq_map_restore rfl
    (by decide : ∀ target ∈ [[0], [0, 1], [0, 2]], target.head? = some 0) (by decide +kernel)

end BranchAndCut.Domains

import BranchAndCut.Proofs.Tree.OpenSet

/-! # The sizes of the heaps

Keys of nodes that have left stay in a heap until they come up in it or the heaps are
compacted. The heaps are compacted for the size of the heap by bound, so that heap stays
small beside the number of open nodes, whatever the selection rule. The other two may lag
behind it by as many keys as it has lost since no heap held an outdated key. -/

namespace BranchAndCut

variable {K : Type}

/-! ## Keys of distinct nodes -/

namespace SizedHeap

variable {m : Std.TreeMap NodeId (OpenNode K)} {h h' : SizedHeap K} {used : NodeId → Prop}

/-- No node has two keys, and only numbers in use have one. -/
structure Distinct (h : SizedHeap K) (used : NodeId → Prop) : Prop where
  nodup : (h.heap.toList.map HeapKey.id).Nodup
  used : ∀ k ∈ h.heap.toList, used k.id

theorem Distinct.weaken {used' : NodeId → Prop} (hd : h.Distinct used)
    (hused : ∀ id, used id → used' id) : h.Distinct used' :=
  ⟨hd.nodup, fun k hk => hused _ (hd.used k hk)⟩

theorem Distinct.subperm (hd : h.Distinct used) (hsub : h'.heap.toList.Subperm h.heap.toList) :
    h'.Distinct used := by
  obtain ⟨l, hperm, hsublist⟩ := hsub
  refine ⟨?_, fun k hk => hd.used k (hsublist.subset (hperm.mem_iff.mpr hk))⟩
  exact (hperm.map HeapKey.id).nodup_iff.mp (hd.nodup.sublist (hsublist.map HeapKey.id))

/-- A heap that lists all open nodes has no fewer keys. -/
theorem Lists.le_size (hl : h.Lists m) : m.size ≤ h.size := by
  have hsub : m.keys.Subperm (h.heap.toList.map HeapKey.id) :=
    List.subperm_of_subset Std.TreeMap.nodup_keys fun id hid => hl.mem id (Std.TreeMap.mem_keys.mp hid)
  have hle := hsub.length_le
  rwa [Std.TreeMap.length_keys, List.length_map, ← hl.size] at hle

variable [Scalar K]

theorem Distinct.insert (hd : h.Distinct used) {k : HeapKey K} (hk : ¬ used k.id) :
    (h.insert k).Distinct fun n => used n ∨ n = k.id := by
  have hperm := Heap.insert_perm h.heap k
  refine ⟨(hperm.map HeapKey.id).nodup_iff.mpr ?_, fun x hx => ?_⟩
  · rw [List.map_cons, List.nodup_cons]
    refine ⟨fun hmem => ?_, hd.nodup⟩
    obtain ⟨x, hx, heq⟩ := List.mem_map.mp hmem
    exact hk (heq ▸ hd.used x hx)
  · rcases List.mem_cons.mp (hperm.mem_iff.mp hx) with rfl | hx
    · exact .inr rfl
    · exact .inl (hd.used x hx)

/-- **A compacted heap holds one key for each open node.** -/
theorem Lists.size_filter (hl : h.Lists m) (hd : h.Distinct used) :
    (h.filter fun k => m.contains k.id).size = m.size := by
  have hopen : (h.filter fun k => m.contains k.id).Lists m :=
    hl.filter fun k hk => Std.TreeMap.mem_iff_contains.mp hk
  have hdistinct : (h.filter fun k => m.contains k.id).Distinct used :=
    hd.subperm (Heap.filter_subperm _ h.heap)
  have hsub : ((h.filter fun k => m.contains k.id).heap.toList.map HeapKey.id).Subperm m.keys := by
    refine List.subperm_of_subset hdistinct.nodup fun id hid => ?_
    obtain ⟨k, hk, rfl⟩ := List.mem_map.mp hid
    have hkept := (List.mem_filter.mp ((Heap.filter_perm _ h.heap).mem_iff.mp hk)).2
    exact Std.TreeMap.mem_keys.mpr (Std.TreeMap.mem_iff_contains.mpr hkept)
  refine Nat.le_antisymm ?_ hopen.le_size
  have hle := hsub.length_le
  rwa [Std.TreeMap.length_keys, List.length_map, ← hopen.size] at hle

end SizedHeap

/-! ## Runs -/

namespace Queue

variable [Scalar K]

/-- The queue after some operations. -/
def after (q : Queue K) (ops : List (QueueOp K)) : Queue K := ops.foldl (fun q op => (q.step op).2) q

/-- No heap holds an outdated key. -/
def Purged (q : Queue K) : Prop :=
  q.byBound.size = q.size ∧ q.byDepth.size = q.size ∧ q.byEstimate.size = q.size

instance (q : Queue K) : Decidable q.Purged := inferInstanceAs (Decidable (_ ∧ _ ∧ _))

/-- The keys that the heap by bound has lost since no heap held an outdated key, after an operation
from `q` to `q'` and with `lost` such keys before it. -/
def lostTo (q : Queue K) (lost : Nat) (q' : Queue K) : Nat :=
  if q'.Purged then 0 else lost + (q.byBound.size - q'.byBound.size)

/-- The keys that the heap by bound has lost likewise after a run. -/
def lostAfter (q : Queue K) (lost : Nat) : List (QueueOp K) → Nat
  | [] => lost
  | op :: ops => (q.step op).2.lostAfter (q.lostTo lost (q.step op).2) ops

/-- Whether the selection rule takes the next node by its bound. -/
def picksByBound (q : Queue K) : Bool :=
  match q.selection with
  | .bestBound => true
  | .depthFirst => false
  | .bestEstimate => false
  | .hybrid diveFreq => q.totalPopped % Nat.max diveFreq 1 != 0
  | .twoPhase => q.hasIncumbent
  | .plunging maxDepth => q.plungeChild?.isNone || decide (maxDepth ≤ q.plungeDepth)

/-- Whether an operation takes keys off the front of the heap by bound. -/
def drawsByBound (q : Queue K) : QueueOp K → Bool
  | .pop => q.picksByBound
  | .bestBound => true
  | _ => false

/-- Whether an operation of a run does. -/
def drawsAfter (q : Queue K) : List (QueueOp K) → Bool
  | [] => false
  | op :: ops => q.drawsByBound op || (q.step op).2.drawsAfter ops

/-! ## What an operation does to the sizes -/

variable {q q' : Queue K} {used : NodeId → Prop} {lost : Nat} {op : QueueOp K}

/-- No node has two keys in a heap, and only numbers in use have keys. -/
structure Distinct (q : Queue K) (used : NodeId → Prop) : Prop where
  byBound : q.byBound.Distinct used
  byDepth : q.byDepth.Distinct used
  byEstimate : q.byEstimate.Distinct used

omit [Scalar K] in
theorem Distinct.weaken {used' : NodeId → Prop} (hd : q.Distinct used)
    (hused : ∀ id, used id → used' id) : q.Distinct used' :=
  ⟨hd.byBound.weaken hused, hd.byDepth.weaken hused, hd.byEstimate.weaken hused⟩

omit [Scalar K] in
theorem Distinct.sheds (hd : q.Distinct used) (hs : q.Sheds q') : q'.Distinct used :=
  ⟨hd.byBound.subperm hs.byBound, hd.byDepth.subperm hs.byDepth, hd.byEstimate.subperm hs.byEstimate⟩

omit [Scalar K] in
theorem Sheds.size_le (hs : q.Sheds q') (hq : q.Wf) (hq' : q'.Wf) :
    q'.byBound.size ≤ q.byBound.size ∧ q'.byDepth.size ≤ q.byDepth.size ∧
      q'.byEstimate.size ≤ q.byEstimate.size := by
  rw [hq.byBound.size, hq'.byBound.size, hq.byDepth.size, hq'.byDepth.size, hq.byEstimate.size,
    hq'.byEstimate.size]
  exact ⟨hs.byBound.length_le, hs.byDepth.length_le, hs.byEstimate.length_le⟩

/-- Compacting does nothing as long as the heap by bound is small; else it leaves no outdated key. -/
theorem compact_cases (hq : q.Wf) (hd : q.Distinct used) :
    (q.compact = q ∧ q.byBound.size ≤ 2 * q.size + 64) ∨ q.compact.Purged := by
  unfold compact
  split
  · next hle => exact .inl ⟨rfl, hle⟩
  · exact .inr ⟨hq.byBound.size_filter hd.byBound, hq.byDepth.size_filter hd.byDepth,
      hq.byEstimate.size_filter hd.byEstimate⟩

/-- A pick that does not go by bound leaves the heap by bound alone. -/
theorem pick_byBound (h : q.picksByBound = false) : q.pick.2.byBound = q.byBound := by
  unfold picksByBound at h
  unfold pick
  cases hsel : q.selection with
  | bestBound =>
    rw [hsel] at h
    cases h
  | depthFirst => rfl
  | bestEstimate => rfl
  | hybrid diveFreq =>
    rw [hsel] at h
    have hdive : q.totalPopped % Nat.max diveFreq 1 = 0 := by simpa using h
    dsimp only
    rw [if_pos hdive]
    rfl
  | twoPhase =>
    rw [hsel] at h
    have hnone : ¬ q.hasIncumbent = true := by simpa using h
    dsimp only
    rw [if_neg hnone]
    rfl
  | plunging maxDepth =>
    rw [hsel] at h
    have hplunge : q.plungeChild?.isSome = true ∧ q.plungeDepth < maxDepth := by simpa using h
    obtain ⟨id, hchild⟩ := Option.isSome_iff_exists.mp hplunge.1
    rw [hchild]
    dsimp only
    rw [if_pos hplunge.2]

theorem step_selection (q : Queue K) (op : QueueOp K) : (q.step op).2.selection = q.selection := by
  have hcompact : ∀ q : Queue K, q.compact.selection = q.selection := fun q => by
    unfold compact
    split <;> rfl
  cases op with
  | push id bound estimate depth => rfl
  | setLastChildren children => rfl
  | setHasIncumbent has => rfl
  | pop =>
    show q.pop.2.selection = q.selection
    rcases pop_cases q with hpop | ⟨-, hpop⟩ | ⟨id, -, hpop⟩
    · rw [hpop]
    · rw [hpop]
      exact (pick_keeps q).2
    · rw [hpop]
      exact (hcompact _).trans (pick_keeps q).2
  | prune prunable => exact hcompact _
  | drain => rfl
  | bestBound => rfl

/-- Two rules never pick by bound. -/
theorem drawsAfter_eq_false {ops : List (QueueOp K)}
    (hsel : q.selection = .depthFirst ∨ q.selection = .bestEstimate) (hops : ∀ op ∈ ops, op ≠ .bestBound) :
    q.drawsAfter ops = false := by
  induction ops generalizing q with
  | nil => rfl
  | cons op ops ih =>
    refine Bool.or_eq_false_iff.mpr ⟨?_, ih (step_selection q op ▸ hsel) fun op' hop' =>
      hops op' (List.mem_cons_of_mem _ hop')⟩
    cases op with
    | pop =>
      show q.picksByBound = false
      unfold picksByBound
      rcases hsel with hsel | hsel
      · rw [hsel]
      · rw [hsel]
    | bestBound => exact (hops _ List.mem_cons_self rfl).elim
    | _ => rfl

/-- What is left of the queue once a picked node is taken out. -/
theorem without_wf (hq : q.Wf) {id : NodeId} (hid : q.pick.1 = some id) :
    id ∈ q.members ∧ (q.pick.2.without id).Wf := by
  have hpick := pick_picks hq
  revert hpick hid
  cases q.pick with
  | mk picked q' =>
    rintro rfl ⟨hmem, hmembers, hwf⟩
    rw [← hmembers] at hwf
    exact ⟨hmem, hwf.byBound, hwf.byDepth, hwf.byEstimate⟩

theorem pick_wf (hq : q.Wf) (hid : q.pick.1 = none) : q.pick.2.Wf := by
  have hpick := pick_picks hq
  revert hpick hid
  cases q.pick with
  | mk picked q' =>
    rintro rfl ⟨-, -, hwf⟩
    exact hwf

theorem step_wf (hq : q.Wf) (op : QueueOp K) : (q.step op).2.Wf := by
  cases op with
  | push id bound estimate depth => exact push_wf hq id bound estimate depth
  | setLastChildren children => exact ⟨hq.byBound, hq.byDepth, hq.byEstimate⟩
  | setHasIncumbent has => exact ⟨hq.byBound, hq.byDepth, hq.byEstimate⟩
  | pop =>
    show q.pop.2.Wf
    rcases pop_cases q with hpop | ⟨hid, hpop⟩ | ⟨id, hid, hpop⟩
    · rw [hpop]
      exact hq
    · rw [hpop]
      exact pick_wf hq hid
    · rw [hpop]
      exact compact_wf (without_wf hq hid).2
  | prune prunable => exact (prune_spec hq prunable).2.2
  | drain => exact (drain_spec q).2.2.2
  | bestBound => exact (bestBound_spec hq).2

/-- Only new nodes bring keys. -/
theorem step_sheds (q : Queue K) (hop : op.added? = none) : q.Sheds (q.step op).2 := by
  cases op with
  | push id bound estimate depth => cases hop
  | setLastChildren children => exact ⟨.refl _, .refl _, .refl _⟩
  | setHasIncumbent has => exact ⟨.refl _, .refl _, .refl _⟩
  | pop => exact pop_sheds q
  | prune prunable => exact prune_sheds q prunable
  | drain => exact ⟨List.nil_subperm, List.nil_subperm, List.nil_subperm⟩
  | bestBound => exact bestBound_sheds q

/-- **What an operation other than a push does to the heap by bound**: it is small for the nodes
that are left; and it has lost keys only by a draw, unless no heap holds an outdated one. -/
theorem step_byBound (hq : q.Wf) (hd : q.Distinct used) (hle : q.byBound.size ≤ 2 * q.size + 64)
    (hop : op.added? = none) :
    (q.step op).2.Purged ∨ ((q.step op).2.byBound.size ≤ 2 * (q.step op).2.size + 64 ∧
      (q.drawsByBound op = false → (q.step op).2.byBound = q.byBound)) := by
  cases op with
  | push id bound estimate depth => cases hop
  | setLastChildren children => exact .inr ⟨hle, fun _ => rfl⟩
  | setHasIncumbent has => exact .inr ⟨hle, fun _ => rfl⟩
  | pop =>
    show q.pop.2.Purged ∨ (q.pop.2.byBound.size ≤ 2 * q.pop.2.size + 64 ∧
      (q.picksByBound = false → q.pop.2.byBound = q.byBound))
    rcases pop_cases q with hpop | ⟨hid, hpop⟩ | ⟨id, hid, hpop⟩
    · rw [hpop]
      exact .inr ⟨hle, fun _ => rfl⟩
    · have hless := ((pick_sheds q).size_le hq (pick_wf hq hid)).1
      have hsmall : q.pick.2.byBound.size ≤ 2 * q.pick.2.size + 64 := by
        unfold Queue.size at hle ⊢
        rw [(pick_keeps q).1]
        omega
      rw [hpop]
      exact .inr ⟨hsmall, pick_byBound⟩
    · rw [hpop]
      rcases compact_cases (without_wf hq hid).2 (hd.sheds ((pick_sheds q).trans (without_sheds _ id))) with
        ⟨heq, hsmall⟩ | hpurged
      · dsimp only
        rw [heq]
        exact .inr ⟨hsmall, pick_byBound⟩
      · exact .inl hpurged
  | prune prunable =>
    rcases compact_cases (foldl_erase_wf hq (q.prune prunable).1) ⟨hd.byBound, hd.byDepth, hd.byEstimate⟩ with
      ⟨heq, hsmall⟩ | hpurged
    · have hstep : (q.step (.prune prunable)).2 =
          { q with members := (q.prune prunable).1.foldl (fun m n => m.erase n) q.members } := heq
      rw [hstep]
      exact .inr ⟨hsmall, fun _ => rfl⟩
    · exact .inl hpurged
  | drain => exact .inl ⟨rfl, rfl, rfl⟩
  | bestBound =>
    have hless := ((bestBound_sheds q).size_le hq (bestBound_spec hq).2).1
    exact .inr ⟨Nat.le_trans hless hle, nofun⟩

/-! ## What a run keeps -/

/-- The heap by bound is small for the number of open nodes, and the other two hold at most
the keys that it has lost besides. -/
structure Balanced (q : Queue K) (used : NodeId → Prop) (lost : Nat) : Prop where
  wf : q.Wf
  distinct : q.Distinct used
  byBound : q.byBound.size ≤ 2 * q.size + 64
  byDepth : q.byDepth.size ≤ q.byBound.size + lost
  byEstimate : q.byEstimate.size ≤ q.byBound.size + lost

omit [Scalar K] in
theorem new_balanced (selection : NodeSelection) : (new selection : Queue K).Balanced used 0 :=
  have hempty : ({} : SizedHeap K).Distinct used := ⟨List.nodup_nil, nofun⟩
  ⟨new_wf selection, ⟨hempty, hempty, hempty⟩, Nat.zero_le _, Nat.zero_le _, Nat.zero_le _⟩

omit [Scalar K] in
theorem Balanced.not_mem (h : q.Balanced used lost) {id : NodeId} (hid : ¬ used id) : id ∉ q.members := by
  intro hmem
  obtain ⟨k, hk, rfl⟩ := List.mem_map.mp (h.wf.byBound.mem id hmem)
  exact hid (h.distinct.byBound.used k hk)

omit [Scalar K] in
/-- The other heaps, whether or not outdated keys are left. -/
theorem heaps_le (q q' : Queue K) (lost : Nat)
    (hdepth : q'.byDepth.size ≤ q'.byBound.size + (lost + (q.byBound.size - q'.byBound.size)))
    (hestimate : q'.byEstimate.size ≤ q'.byBound.size + (lost + (q.byBound.size - q'.byBound.size))) :
    q'.byDepth.size ≤ q'.byBound.size + q.lostTo lost q' ∧
      q'.byEstimate.size ≤ q'.byBound.size + q.lostTo lost q' := by
  unfold lostTo
  split
  · next hpurged =>
    obtain ⟨hbound, hdepth, hestimate⟩ := hpurged
    omega
  · exact ⟨hdepth, hestimate⟩

theorem Balanced.push (h : q.Balanced used lost) {id : NodeId} (hid : ¬ used id) (bound estimate : K)
    (depth : Nat) : (q.push id bound estimate depth).Balanced (fun n => used n ∨ n = id)
      (q.lostTo lost (q.push id bound estimate depth)) := by
  have hsize := push_size (h.not_mem hid) bound estimate depth
  have hgrown : (q.push id bound estimate depth).byBound.size = q.byBound.size + 1 ∧
      (q.push id bound estimate depth).byDepth.size = q.byDepth.size + 1 ∧
      (q.push id bound estimate depth).byEstimate.size = q.byEstimate.size + 1 := ⟨rfl, rfl, rfl⟩
  obtain ⟨hwf, hd, hle, hdepth, hestimate⟩ := h
  obtain ⟨hdepth', hestimate'⟩ := heaps_le q (q.push id bound estimate depth) lost (by omega) (by omega)
  exact ⟨push_wf hwf id bound estimate depth,
    ⟨hd.byBound.insert hid, hd.byDepth.insert hid, hd.byEstimate.insert hid⟩, by omega, hdepth', hestimate'⟩

omit [Scalar K] in
/-- An operation that brings no keys. -/
theorem Balanced.sheds (h : q.Balanced used lost) (hs : q.Sheds q') (hwf : q'.Wf)
    (hle : q'.byBound.size ≤ 2 * q'.size + 64) : q'.Balanced used (q.lostTo lost q') := by
  have hsize := hs.size_le h.wf hwf
  obtain ⟨-, hd, -, hdepth, hestimate⟩ := h
  obtain ⟨hdepth', hestimate'⟩ := heaps_le q q' lost (by omega) (by omega)
  exact ⟨hwf, hd.sheds hs, hle, hdepth', hestimate'⟩

/-- **What every operation keeps.** -/
theorem Balanced.step (h : q.Balanced used lost) (op : QueueOp K)
    (hfresh : ∀ id, op.added? = some id → ¬ used id) :
    (q.step op).2.Balanced (fun id => used id ∨ op.added? = some id) (q.lostTo lost (q.step op).2) := by
  cases hop : op.added? with
  | some id =>
    obtain ⟨bound, estimate, depth, rfl⟩ := QueueOp.eq_push_of_added? hop
    have hpush := h.push (hfresh id hop) bound estimate depth
    exact { hpush with
      distinct := hpush.distinct.weaken fun m => Or.imp_right fun heq => congrArg some heq.symm }
  | none =>
    have hle : (q.step op).2.byBound.size ≤ 2 * (q.step op).2.size + 64 := by
      rcases step_byBound h.wf h.distinct h.byBound hop with hpurged | ⟨hsmall, -⟩
      · have heq := hpurged.1
        omega
      · exact hsmall
    have hnext := h.sheds (step_sheds q hop) (step_wf h.wf op) hle
    exact { hnext with distinct := hnext.distinct.weaken fun _ => .inl }

/-- Nothing is lost where the heap by bound is not drawn from. -/
theorem Balanced.lostTo_eq_zero (h : q.Balanced used 0) (hdraw : q.drawsByBound op = false) :
    q.lostTo 0 (q.step op).2 = 0 := by
  unfold lostTo
  split
  · rfl
  · next houtdated =>
    cases hop : op.added? with
    | some id =>
      obtain ⟨bound, estimate, depth, rfl⟩ := QueueOp.eq_push_of_added? hop
      show 0 + (q.byBound.size - (q.byBound.size + 1)) = 0
      omega
    | none =>
      rcases step_byBound h.wf h.distinct h.byBound hop with hpurged | ⟨-, hkept⟩
      · exact (houtdated hpurged).elim
      · rw [hkept hdraw]
        omega

/-- **What a run keeps.** -/
theorem Balanced.after (h : q.Balanced used lost) (ops : List (QueueOp K))
    (hnodup : (ops.filterMap QueueOp.added?).Nodup) (hfresh : ∀ id ∈ ops.filterMap QueueOp.added?, ¬ used id) :
    ∃ used', (q.after ops).Balanced used' (q.lostAfter lost ops) := by
  induction ops generalizing q used lost with
  | nil => exact ⟨used, h⟩
  | cons op ops ih =>
    obtain ⟨hnew, hnodup, hrest⟩ := QueueOp.fresh_cons hnodup hfresh
    exact ih (h.step op hnew) hnodup hrest

theorem Balanced.lostAfter_eq_zero (h : q.Balanced used 0) (ops : List (QueueOp K))
    (hnodup : (ops.filterMap QueueOp.added?).Nodup) (hfresh : ∀ id ∈ ops.filterMap QueueOp.added?, ¬ used id)
    (hdraw : q.drawsAfter ops = false) : q.lostAfter 0 ops = 0 := by
  induction ops generalizing q used with
  | nil => rfl
  | cons op ops ih =>
    obtain ⟨hop, hlater⟩ := Bool.or_eq_false_iff.mp hdraw
    obtain ⟨hnew, hnodup, hrest⟩ := QueueOp.fresh_cons hnodup hfresh
    have hzero := h.lostTo_eq_zero hop
    have hnext := h.step op hnew
    unfold lostAfter
    rw [hzero] at hnext ⊢
    exact ih hnext hnodup hrest hlater

/-- **The heap by bound is small** for the number of open nodes, whatever the selection rule and
the operations, as long as no number is pushed twice. The other two heaps hold at most as many
keys besides as that heap has lost since no heap held an outdated key; so they are as small
as long as no pick goes by bound and the best bound is not asked for. -/
theorem after_bounded (selection : NodeSelection) (ops : List (QueueOp K))
    (hnodup : (ops.filterMap QueueOp.added?).Nodup) :
    let q := (new selection).after ops
    let lost := (new selection).lostAfter 0 ops
    q.byBound.heap.size ≤ 2 * q.size + 64 ∧
      q.byDepth.heap.size ≤ 2 * q.size + 64 + lost ∧
      q.byEstimate.heap.size ≤ 2 * q.size + 64 + lost ∧
      ((new selection).drawsAfter ops = false → lost = 0) ∧
      ((selection = .depthFirst ∨ selection = .bestEstimate) → (∀ op ∈ ops, op ≠ .bestBound) →
        (new selection).drawsAfter ops = false) := by
  intro q lost
  have hnew : (new selection : Queue K).Balanced (fun _ => False) 0 := new_balanced selection
  obtain ⟨used, hwf, -, hbound, hdepth, hestimate⟩ := hnew.after ops hnodup fun _ _ => id
  rw [hwf.byBound.size, ← Heap.size_eq_length] at hbound hdepth hestimate
  rw [hwf.byDepth.size, ← Heap.size_eq_length] at hdepth
  rw [hwf.byEstimate.size, ← Heap.size_eq_length] at hestimate
  exact ⟨hbound, Nat.le_trans hdepth (Nat.add_le_add_right hbound lost),
    Nat.le_trans hestimate (Nat.add_le_add_right hbound lost),
    hnew.lostAfter_eq_zero ops hnodup fun _ _ => id, fun hsel => drawsAfter_eq_false hsel⟩

/-- Sixty-six nodes, of which the deepest one and another are taken and the others are pruned. -/
def crowd : List (QueueOp Float) :=
  .push 0 0.0 0.0 2 :: (List.range' 1 65).map (fun id => .push id 0.0 0.0 1) ++
    [.pop, .pop, .prune fun bound => decide (0.0 ≤ bound)]

/-- No node is left, and all keys but the one that the pick by depth took. -/
theorem crowd_leaves :
    ((new (.hybrid 2) : Queue Float).after crowd).size = 0 ∧
      (new (.hybrid 2) : Queue Float).lostAfter 0 crowd = 2 ∧
      ((new (.hybrid 2) : Queue Float).after crowd).byDepth.heap.size = 65 ∧
      ((new (.hybrid 2) : Queue Float).after crowd).byEstimate.heap.size = 66 := by
  decide +kernel

theorem after_bounded_crowd :
    (crowd.filterMap QueueOp.added?).Nodup ∧
      (let q : Queue Float := (new (.hybrid 2)).after crowd
      let lost := (new (.hybrid 2) : Queue Float).lostAfter 0 crowd
      (q.size = 0 ∧ lost = 2 ∧ q.byEstimate.heap.size = 66) ∧
        q.byEstimate.heap.size ≤ 2 * q.size + 64 + lost) ∧
      (∀ op ∈ crowd, op ≠ .bestBound) ∧ (new .depthFirst : Queue Float).lostAfter 0 crowd = 0 := by
  have hnodup : (crowd.filterMap QueueOp.added?).Nodup := by decide
  have hops : ∀ op ∈ crowd, op ≠ .bestBound := by
    have hasked : (crowd.all fun op => !op matches .bestBound) = true := by decide
    rintro op hop rfl
    exact nomatch List.all_eq_true.mp hasked _ hop
  obtain ⟨hsize, htwo, -, hestimate⟩ := crowd_leaves
  obtain ⟨-, -, -, hlost, hdraw⟩ := after_bounded .depthFirst crowd hnodup
  exact ⟨hnodup, ⟨⟨hsize, htwo, hestimate⟩, (after_bounded (.hybrid 2) crowd hnodup).2.2.1⟩, hops,
    hlost (hdraw (.inl rfl) hops)⟩

/-! ## Picks by bound leave the other heaps as they are -/

/-- A queue that picks by bound, with no outdated key in that heap and with the keys of all nodes
ever added in the other two. -/
structure Hoards (q : Queue K) : Prop where
  selection : q.selection = .bestBound
  byBound : q.byBound.size = q.size
  byDepth : q.byDepth.size = q.totalAdded
  byEstimate : q.byEstimate.size = q.totalAdded

theorem Hoards.push (h : q.Hoards) {id : NodeId} (hid : id ∉ q.members) (bound estimate : K) (depth : Nat) :
    (q.push id bound estimate depth).Hoards where
  selection := h.selection
  byBound := by
    rw [push_size hid, ← h.byBound]
    rfl
  byDepth := congrArg (· + 1) h.byDepth
  byEstimate := congrArg (· + 1) h.byEstimate

/-- A pick takes a key. -/
theorem popOpen?_size_lt {m : Std.TreeMap NodeId (OpenNode K)} {h : SizedHeap K} {id : NodeId}
    (hsize : h.size = h.heap.toList.length) (hid : (popOpen? m h (h.size + 1)).1 = some id) :
    (popOpen? m h (h.size + 1)).2.size < h.size := by
  have hdrop : ∀ (h' : SizedHeap K) k heap, h'.size = h'.heap.toList.length ∧ h'.size ≤ h.size →
      h'.heap.pop? = some (k, heap) → h'.size = heap.toList.length + 1 := by
    rintro h' k heap ⟨hsize', -⟩ hpop
    rw [hsize', (Heap.pop?_perm hpop).length_eq, List.length_cons]
  rcases firstOpen_cases (m := m) (P := fun h' => h'.size = h'.heap.toList.length ∧ h'.size ≤ h.size)
    ⟨hsize, Nat.le_refl _⟩ (fun _ h' => h'.1)
    (fun h' k heap hP hpop _ => ⟨Nat.sub_eq_of_eq_add (hdrop h' k heap hP hpop),
      Nat.le_trans (Nat.sub_le _ _) hP.2⟩) (Nat.lt_succ_self _) with
    ⟨h₀, k, heap, hP, hpop, -, hopen, -⟩ | ⟨h₀, -, -, hopen, -⟩
  · have hsize₀ := hdrop h₀ k heap hP hpop
    rw [hopen]
    show h₀.size - 1 < h.size
    omega
  · rw [hopen] at hid
    cases hid

theorem Hoards.pop (h : q.Hoards) (hq : q.Wf) : q.pop.2.Hoards := by
  have hpick : q.pick = q.popBound := by
    unfold pick
    rw [h.selection]
  rcases pop_cases q with hpop | ⟨hid, hpop⟩ | ⟨id, hid, hpop⟩
  · rw [hpop]
    exact h
  · have hless := ((pick_sheds q).size_le hq (pick_wf hq hid)).1
    have hmore := (pick_wf hq hid).byBound.le_size
    rw [hpop]
    rw [hpick] at hless hmore ⊢
    refine ⟨h.selection, Nat.le_antisymm ?_ hmore, h.byDepth, h.byEstimate⟩
    exact Nat.le_trans hless (Nat.le_of_eq h.byBound)
  · obtain ⟨hmem, hwf⟩ := without_wf hq hid
    have hsize : (q.members.erase id).size + 1 = q.members.size :=
      size_foldl_erase (List.nodup_singleton id) fun n hn => List.mem_singleton.mp hn ▸ hmem
    have hmore := hwf.byBound.le_size
    rw [hpop]
    rw [hpick] at hid hmore ⊢
    have hless : (q.popBound.2.without id).byBound.size < q.byBound.size := popOpen?_size_lt hq.byBound.size hid
    have hexact : (q.popBound.2.without id).byBound.size = (q.popBound.2.without id).size := by
      refine Nat.le_antisymm ?_ hmore
      rw [h.byBound] at hless
      show _ ≤ (q.members.erase id).size
      unfold Queue.size at hless
      omega
    have hsame : (q.popBound.2.without id).compact = q.popBound.2.without id := by
      unfold compact
      rw [if_pos (by omega)]
    dsimp only
    rw [hsame]
    exact ⟨h.selection, hexact, h.byDepth, h.byEstimate⟩

theorem Balanced.hoards (hb : q.Balanced used lost) (h : q.Hoards) (ops : List (QueueOp K))
    (hnodup : (ops.filterMap QueueOp.added?).Nodup) (hfresh : ∀ id ∈ ops.filterMap QueueOp.added?, ¬ used id)
    (hops : ∀ op ∈ ops, op = .pop ∨ op.added?.isSome = true) : (q.after ops).Wf ∧ (q.after ops).Hoards := by
  induction ops generalizing q used lost with
  | nil => exact ⟨hb.wf, h⟩
  | cons op ops ih =>
    obtain ⟨hnew, hnodup, hrest⟩ := QueueOp.fresh_cons hnodup hfresh
    refine ih (hb.step op hnew) ?_ hnodup hrest fun op' hop' => hops op' (List.mem_cons_of_mem _ hop')
    rcases hops op List.mem_cons_self with rfl | hop
    · exact h.pop hb.wf
    · obtain ⟨id, hid⟩ := Option.isSome_iff_exists.mp hop
      obtain ⟨bound, estimate, depth, rfl⟩ := QueueOp.eq_push_of_added? hid
      exact h.push (hb.not_mem (hnew id hid)) bound estimate depth

/-- **Picks by bound drop no key from the other heaps.** Where nodes are only pushed and taken by
bound, these keep the keys of all nodes that were ever added. -/
theorem bestBound_hoards (ops : List (QueueOp K)) (hnodup : (ops.filterMap QueueOp.added?).Nodup)
    (hops : ∀ op ∈ ops, op = .pop ∨ op.added?.isSome = true) :
    let q := (new .bestBound).after ops
    q.byDepth.heap.size = q.totalAdded ∧ q.byEstimate.heap.size = q.totalAdded := by
  intro q
  have hnew : (new .bestBound : Queue K).Balanced (fun _ => False) 0 := new_balanced .bestBound
  obtain ⟨hwf, -, -, hdepth, hestimate⟩ := hnew.hoards ⟨rfl, rfl, rfl, rfl⟩ ops hnodup (fun _ _ => id) hops
  rw [hwf.byDepth.size, ← Heap.size_eq_length] at hdepth
  rw [hwf.byEstimate.size, ← Heap.size_eq_length] at hestimate
  exact ⟨hdepth, hestimate⟩

/-- Sixty-five nodes, all of which are taken. -/
def emptied : List (QueueOp Float) :=
  (List.range 65).map (fun id => .push id 0.0 0.0 0) ++ List.replicate 65 .pop

/-- **Outdated keys dominate the heaps that are not looked at**: after picks by bound alone, and
after a pick by depth, one by bound and pruning. -/
theorem outdated_keys_dominate :
    ((emptied.filterMap QueueOp.added?).Nodup ∧
      let q : Queue Float := (new .bestBound).after emptied
      q.size = 0 ∧ 2 * q.size + 64 < q.byDepth.heap.size ∧ 2 * q.size + 64 < q.byEstimate.heap.size) ∧
    ((crowd.filterMap QueueOp.added?).Nodup ∧
      let q : Queue Float := (new (.hybrid 2)).after crowd
      q.size = 0 ∧ 2 * q.size + 64 < q.byDepth.heap.size ∧ 2 * q.size + 64 < q.byEstimate.heap.size) := by
  have hnodup : (emptied.filterMap QueueOp.added?).Nodup := by decide
  have hops : ∀ op ∈ emptied, op = .pop ∨ op.added?.isSome = true := by
    intro op hop
    rcases List.mem_append.mp hop with hpush | hpop
    · obtain ⟨id, -, rfl⟩ := List.mem_map.mp hpush
      exact .inr rfl
    · exact .inl (List.eq_of_mem_replicate hpop)
  obtain ⟨hdepth, hestimate⟩ := bestBound_hoards emptied hnodup hops
  have hcounts : ((new .bestBound : Queue Float).after emptied).size = 0 ∧
      ((new .bestBound : Queue Float).after emptied).totalAdded = 65 := by decide +kernel
  have hcrowd : (crowd.filterMap QueueOp.added?).Nodup := by decide
  obtain ⟨hsize, -, hcrowdDepth, hcrowdEstimate⟩ := crowd_leaves
  refine ⟨⟨hnodup, hcounts.1, ?_, ?_⟩, hcrowd, hsize, ?_, ?_⟩
  · rw [hdepth, hcounts.1, hcounts.2]
    decide
  · rw [hestimate, hcounts.1, hcounts.2]
    decide
  · rw [hsize, hcrowdDepth]
    decide
  · rw [hsize, hcrowdEstimate]
    decide

end Queue

end BranchAndCut

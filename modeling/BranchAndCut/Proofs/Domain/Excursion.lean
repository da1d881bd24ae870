import BranchAndCut.Proofs.Domain.Levels

/-! # Coming back to a node

When the store moves to another path, the nodes that both paths share keep their
levels: the rest is undone, and what is entered then lies above them. So whatever
is entered, requested or found to conflict below a node, coming back to the node
gives the store that was left there, and no change is replayed. The node may not
be the root, where changes are global, but it may be its child. -/

namespace BranchAndCut.Domains

variable {K : Type} {d e : Domains K}

/-! ## Levels by the number of nodes entered -/

theorem length_path (d : Domains K) : d.path.length = d.frames.length := by
  simp [path]

theorem leaveTo_length (hne : d.frames ≠ []) : d.leaveTo d.frames.length = d := by
  rw [leaveTo_pos d (List.length_pos_of_ne_nil hne) hne, Nat.sub_self]
  rfl

theorem leaveTo_leave {m : Nat} (hpos : 0 < m) (hm : m < d.frames.length) : d.leave.leaveTo m = d.leaveTo m := by
  have hne : d.frames ≠ [] := List.ne_nil_of_length_pos (by omega)
  have hlength : d.leave.frames.length = d.frames.length - 1 := by simp [leave_frames]
  have hne' : d.leave.frames ≠ [] := List.ne_nil_of_length_pos (by omega)
  rw [leaveTo_pos d.leave hpos hne', leaveTo_pos d hpos hne, hlength, ← repeat_leave_succ]
  congr 1
  omega

theorem leaveTo_leaveTo {k m : Nat} (hne : d.frames ≠ []) (hpos : 0 < m) (hmk : m ≤ k) :
    (d.leaveTo k).leaveTo m = d.leaveTo m := by
  have hlength : (d.leaveTo k).frames.length = d.frames.length - (d.frames.length - k) := by
    rw [leaveTo_frames, List.length_drop]
  have hentered := List.length_pos_of_ne_nil hne
  have hne' : (d.leaveTo k).frames ≠ [] := List.ne_nil_of_length_pos (by omega)
  rw [leaveTo_pos _ hpos hne', hlength, leaveTo_pos d (Nat.lt_of_lt_of_le hpos hmk) hne, leaveTo_pos d hpos hne,
    repeat_leave_add]
  congr 1
  omega

/-! ## Common beginnings of paths -/

theorem commonLength_append (as bs cs : List NodeId) :
    commonLength (as ++ bs) (as ++ cs) = as.length + commonLength bs cs := by
  induction as with
  | nil => simp
  | cons a as ih => simp [commonLength, ih]; omega

theorem commonLength_comm (as bs : List NodeId) : commonLength as bs = commonLength bs as := by
  induction as generalizing bs with
  | nil => cases bs <;> rfl
  | cons a as ih =>
    cases bs with
    | nil => rfl
    | cons b bs => simp [commonLength, ih, eq_comm]

theorem le_commonLength {head as bs : List NodeId} (has : head <+: as) (hbs : head <+: bs) :
    head.length ≤ commonLength as bs := by
  obtain ⟨as, rfl⟩ := has
  obtain ⟨bs, rfl⟩ := hbs
  rw [commonLength_append]
  exact Nat.le_add_right _ _

theorem isPrefix_of_le_commonLength {head as bs : List NodeId} (hbs : head <+: bs)
    (hle : head.length ≤ commonLength as bs) : head <+: as := by
  have hinside : head <+: bs.take (commonLength as bs) := List.prefix_take_iff.mpr ⟨hbs, hle⟩
  rw [← take_commonLength] at hinside
  exact hinside.trans (List.take_prefix _ _)

theorem commonLength_of_isPrefix {as bs : List NodeId} (h : as <+: bs) : commonLength as bs = as.length :=
  Nat.le_antisymm (commonLength_le as bs) (le_commonLength (List.prefix_refl as) h)

theorem commonLength_take (as bs : List NodeId) (m : Nat) :
    commonLength as (bs.take m) = min m (commonLength as bs) := by
  induction as generalizing bs m with
  | nil => cases bs <;> cases m <;> simp [commonLength]
  | cons a as ih =>
    cases bs with
    | nil => simp [commonLength]
    | cons b bs =>
      cases m with
      | zero => simp [commonLength]
      | succ m =>
        simp only [List.take_succ_cons, commonLength]
        split
        · rw [ih, Nat.succ_min_succ]
        · simp

/-! ## What moves and requests leave below -/

variable [Scalar K] {delta : NodeId → List (BoundChange K)}

theorem leaveTo_tighten {m : Nat} (hpos : 0 < m) (hm : m < d.frames.length) (v : VarId) (kind : BoundKind) (value : K)
    (reason : Reason) : Agree ((d.tighten v kind value reason).2.leaveTo m) (d.leaveTo m) := by
  have hlength := d.tighten_frames_length v kind value reason
  have hleave := leave_tighten (show 2 ≤ d.frames.length by omega) v kind value reason
  rw [← leaveTo_leave hpos hm, ← leaveTo_leave hpos (hlength ▸ hm)]
  exact hleave.leaveTo m

variable (delta) in
theorem leaveTo_foldl_enter {m : Nat} (hpos : 0 < m) (acc : Bool × Domains K) (hm : m ≤ acc.2.frames.length)
    (nodes : List NodeId) : Agree ((nodes.foldl (enter delta) acc).2.leaveTo m) (acc.2.leaveTo m) := by
  induction nodes generalizing acc with
  | nil => rfl
  | cons node nodes ih =>
    have hlength : (enter delta acc node).2.frames.length = acc.2.frames.length + 1 := by
      simpa using congrArg List.length (@enter_nodes _ _ delta acc node)
    have hleave := leave_enter delta acc (List.ne_nil_of_length_pos (by omega)) node
    have hone := hleave.leaveTo m
    rw [leaveTo_leave hpos (by omega)] at hone
    exact (ih (enter delta acc node) (by omega)).trans hone

variable (delta) in
/-- **Shared nodes** keep their levels when the path changes. -/
theorem leaveTo_restore {m : Nat} {target : List NodeId} (hpos : 0 < m) (hm : m ≤ commonLength d.path target) :
    Agree ((d.restore target delta).2.leaveTo m) (d.leaveTo m) := by
  have hle := commonLength_le d.path target
  rw [length_path] at hle
  have hne : d.frames ≠ [] := List.ne_nil_of_length_pos (by omega)
  have hlength : (d.leaveTo (commonLength d.path target)).frames.length = commonLength d.path target := by
    rw [leaveTo_frames, List.length_drop]
    omega
  have hentered := leaveTo_foldl_enter delta hpos (true, d.leaveTo (commonLength d.path target))
    (by rw [hlength]; exact hm) (target.drop (commonLength d.path target))
  rw [leaveTo_leaveTo hne hpos hm] at hentered
  exact ((agree_clearPending _).leaveTo m).trans hentered

/-- Pending changes do not matter to a move. -/
theorem Agree.restore (h : Agree d e) (target : List NodeId) : d.restore target delta = e.restore target delta := by
  have hpath := h.path
  obtain ⟨hanswer, hstore⟩ := (h.leaveTo (commonLength d.path target)).foldl_enter delta true
    (target.drop (commonLength d.path target))
  unfold Domains.restore
  rw [hpath]
  exact Prod.ext hanswer hstore

/-- A move up the path enters no node. -/
theorem restore_of_isPrefix {head : List NodeId} (h : head <+: d.path) :
    d.restore head delta = (true, (d.leaveTo head.length).clearPending) := by
  have hcommon : commonLength d.path head = head.length := by
    rw [commonLength_comm]
    exact commonLength_of_isPrefix h
  unfold Domains.restore
  simp only [hcommon, List.drop_length, List.foldl_nil]

/-- Nodes that are left anyway may be left before. -/
theorem restore_leaveTo {k : Nat} {target : List NodeId} (hpos : 0 < commonLength d.path target)
    (hk : commonLength d.path target ≤ k) : (d.leaveTo k).restore target delta = d.restore target delta := by
  have hle := commonLength_le d.path target
  rw [length_path] at hle
  have hcommon : commonLength (d.leaveTo k).path target = commonLength d.path target := by
    rw [leaveTo_path, commonLength_comm, commonLength_take, commonLength_comm, Nat.min_eq_right hk]
  unfold Domains.restore
  simp only [hcommon]
  rw [leaveTo_leaveTo (List.ne_nil_of_length_pos (by omega)) hpos hk]

/-! ## Excursions -/

/-- Stores reached from a node: nodes below it are entered, then bounds are requested there,
and other paths that go on from the node are taken, each with changes of its own. -/
inductive Excursion (d : Domains K) : Domains K → Prop
  | descend (node : NodeId) (below : List NodeId) (delta : NodeId → List (BoundChange K)) :
      Excursion d (d.restore (d.path ++ node :: below) delta).2
  | move {e e' : Domains K} (h : Excursion d e) (hmove : e.Move e') : Excursion d e'
  | switch {e : Domains K} (h : Excursion d e) (node : NodeId) (below : List NodeId)
      (delta : NodeId → List (BoundChange K)) : Excursion d (e.restore (d.path ++ node :: below) delta).2

/-- The store stands below the active node of another one, whose level it has kept. -/
structure Below (d e : Domains K) : Prop where
  path : d.path <+: e.path
  deeper : d.frames.length < e.frames.length
  level : Agree (e.leaveTo d.frames.length) d

/-- A path that goes on from the node leads below it, from the node and from below it. -/
theorem Below.restore (hd : d.frames ≠ []) (hpath : d.path <+: e.path) (hlevel : Agree (e.leaveTo d.frames.length) d)
    (node : NodeId) (below : List NodeId) : Below d (e.restore (d.path ++ node :: below) delta).2 := by
  have hafter := restore_path e (d.path ++ node :: below) delta
  have hcommon := le_commonLength hpath (List.prefix_append d.path (node :: below))
  rw [length_path] at hcommon
  have hkept := leaveTo_restore delta (List.length_pos_of_ne_nil hd) hcommon
  refine ⟨?_, ?_, hkept.trans hlevel⟩
  · rw [hafter]
    exact List.prefix_append _ _
  · rw [← length_path, ← length_path, hafter, List.length_append, List.length_cons]
    omega

/-- Requests leave the path as it is. -/
theorem Move.path {e' : Domains K} (hmove : e.Move e') : e'.path = e.path := by
  cases hmove with
  | request v kind value reason => exact congrArg List.reverse (tighten_nodes v kind value reason)
  | agree hagree => exact hagree.path

theorem Below.move {e' : Domains K} (h : Below d e) (hd : d.frames ≠ []) (hmove : e.Move e') : Below d e' := by
  have hpos := List.length_pos_of_ne_nil hd
  have hpath := hmove.path
  have hlength : e'.frames.length = e.frames.length := by rw [← length_path, hpath, length_path]
  refine ⟨hpath ▸ h.path, hlength ▸ h.deeper, ?_⟩
  cases hmove with
  | request v kind value reason => exact (leaveTo_tighten hpos h.deeper v kind value reason).trans h.level
  | agree hagree => exact (hagree.leaveTo _).symm.trans h.level

theorem Excursion.keeps (h : Excursion d e) (hd : d.frames ≠ []) : Below d e := by
  induction h with
  | descend node below delta =>
    have hlevel : Agree (d.leaveTo d.frames.length) d := by
      rw [leaveTo_length hd]
      rfl
    exact Below.restore hd (List.prefix_refl _) hlevel node below
  | move _ hmove ih => exact ih.move hd hmove
  | switch _ node below delta ih => exact Below.restore hd ih.path ih.level node below

/-- **Coming back** from below a node succeeds and gives the store as it was at the node, with
nothing pending: whatever was entered below, with or without a conflict, and whatever was
requested there. -/
theorem restore_of_excursion (hd : d.frames ≠ []) (h : Excursion d e) (delta : NodeId → List (BoundChange K)) :
    e.restore d.path delta = (true, d.clearPending) := by
  obtain ⟨hpath, -, hlevel⟩ := h.keeps hd
  rw [restore_of_isPrefix hpath, length_path, hlevel]

/-- Below a child of the root: a replay that stops at a conflict, a request there, and a path
with two more nodes. -/
theorem restore_of_excursion_conflict :
    let delta : NodeId → List (BoundChange (Exact ℚ)) := fun
      | 1 => [.lower 0 0 (.fin 1)]
      | 2 => [.upper 0 (.fin 4) (.fin 2), .lower 0 (.fin 1) (.fin 3)]
      | 3 => [.lower 1 0 (.fin 5)]
      | _ => []
    let d := ((new #[0, 0] #[.fin 4, .posInf] #[true, false] (.fin (1 / 1000))).restore [0, 1] delta).2
    let stopped := d.restore [0, 1, 2] delta
    let e := ((stopped.2.tighten 1 .upper (.fin 9) .implication).2.restore [0, 1, 3, 4] delta).2
    d.frames ≠ [] ∧ stopped.1 = false ∧ Excursion d e ∧ e.restore [0, 1] delta = (true, d.clearPending) := by
  intro delta d stopped e
  have hpath : d.path = [0, 1] := restore_path ..
  have hentered : d.frames ≠ [] := by
    intro hnil
    simp [Domains.path, hnil] at hpath
  have hdescent : Excursion d stopped.2 := by
    have hdescend := Excursion.descend (d := d) 2 [] delta
    rwa [hpath] at hdescend
  have hswitch := (hdescent.move (.request _ 1 .upper (.fin 9) .implication)).switch 3 [4] delta
  rw [hpath] at hswitch
  have hback := restore_of_excursion hentered hswitch delta
  rw [hpath] at hback
  exact ⟨hentered, by decide +kernel, hswitch, hback⟩

end BranchAndCut.Domains

import BranchAndCut.Proofs.Program
import BranchAndCut.Proofs.Tree.SearchTree

/-! # Closing nodes

Closing a node takes it out of the tree, and with it the ancestors that have no children
left. The nodes taken out are noted in order, each after its children, and all other
nodes keep their place, their changes and their bound. -/

namespace BranchAndCut.SearchTree

section Trees

variable {K : Type} {t u : SearchTree K} {n q : NodeId} {node : Node K}

/-! ## From one tree to the next -/

/-- The nodes in `rs` leave the tree, in this order and each after its children. -/
structure Releases (t u : SearchTree K) (rs : List NodeId) : Prop where
  list : u.released = rs.reverse ++ t.released
  mem : ∀ n, n ∈ rs ↔ (∃ node, t.node? n = some node) ∧ u.node? n = none
  nodup : rs.Nodup
  order : ∀ {c node p}, t.node? c = some node → node.parent = some p → p ∈ rs → [c, p].Sublist rs

/-- Nothing but `gone` is closed on the way from one tree to another, and what
stays has its place, its changes and its bound. -/
structure Closes (t u : SearchTree K) (gone : NodeId → Prop) : Prop where
  nodes : ∀ {n node}, u.node? n = some node → ∃ old, t.node? n = some old ∧
    node.parent = old.parent ∧ node.changes = old.changes ∧ node.dualBound = old.dualBound ∧
    (node.status = old.status ∨ gone n ∧ node.status.isClosed = true)
  kept : ∀ {n old}, t.node? n = some old → old.status.isClosed = false → ¬ gone n →
    ∃ node, u.node? n = some node
  nextId : u.nextId = t.nextId
  unresolved : u.unresolved = t.unresolved
  releases : ∃ rs, Releases t u rs

theorem Releases.nil (hnodes : ∀ n, (u.node? n).isSome = (t.node? n).isSome)
    (hreleased : u.released = t.released) : Releases t u [] := by
  refine ⟨hreleased, fun n => ?_, List.nodup_nil, fun _ _ hp => absurd hp List.not_mem_nil⟩
  refine ⟨fun hn => absurd hn List.not_mem_nil, fun ⟨⟨node, hn⟩, hnone⟩ => ?_⟩
  have hsame := hnodes n
  rw [hn, hnone] at hsame
  cases hsame

theorem Releases.append {v : SearchTree K} {rs rs' : List NodeId} (h : Releases t u rs)
    (h' : Releases u v rs') (hu : ∀ {n node}, u.node? n = some node →
      ∃ old, t.node? n = some old ∧ node.parent = old.parent)
    (hv : ∀ {n node}, v.node? n = some node → ∃ old, u.node? n = some old) :
    Releases t v (rs ++ rs') := by
  have hstays : ∀ n, u.node? n = none → v.node? n = none := fun n hn => by
    refine Option.eq_none_iff_forall_ne_some.mpr fun x hx => ?_
    obtain ⟨old, hold⟩ := hv hx
    rw [hn] at hold
    cases hold
  refine ⟨?_, fun n => ?_, List.nodup_append.mpr ⟨h.nodup, h'.nodup, fun a ha b hb => ?_⟩,
    fun {c x p} hc hp hmem => ?_⟩
  · rw [h'.list, h.list, List.reverse_append, List.append_assoc]
  · rw [List.mem_append, h.mem, h'.mem]
    constructor
    · rintro (⟨halive, hnone⟩ | ⟨⟨x, hx⟩, hnone⟩)
      · exact ⟨halive, hstays n hnone⟩
      · obtain ⟨old, hold, -⟩ := hu hx
        exact ⟨⟨old, hold⟩, hnone⟩
    · rintro ⟨halive, hnone⟩
      cases hun : u.node? n with
      | none => exact .inl ⟨halive, rfl⟩
      | some x => exact .inr ⟨⟨x, rfl⟩, hnone⟩
  · rintro rfl
    obtain ⟨x, hx⟩ := ((h'.mem a).mp hb).1
    rw [((h.mem a).mp ha).2] at hx
    cases hx
  · rcases List.mem_append.mp hmem with hmem | hmem
    · exact (h.order hc hp hmem).trans (List.sublist_append_left _ _)
    · cases huc : u.node? c with
      | none =>
        have hrs : [c].Sublist rs := List.singleton_sublist.mpr ((h.mem c).mpr ⟨⟨x, hc⟩, huc⟩)
        exact hrs.append (List.singleton_sublist.mpr hmem)
      | some y =>
        obtain ⟨old, hold, hparent⟩ := hu huc
        obtain rfl := Option.some.inj (hc.symm.trans hold)
        exact (h'.order huc (hparent.trans hp) hmem).trans (List.sublist_append_right _ _)

theorem Closes.refl (t : SearchTree K) : Closes t t fun _ => False :=
  ⟨fun h => ⟨_, h, rfl, rfl, rfl, .inl rfl⟩, fun h _ _ => ⟨_, h⟩, rfl, rfl, [], .nil (fun _ => rfl) rfl⟩

theorem Closes.trans {v : SearchTree K} {gone gone' : NodeId → Prop} (h : Closes t u gone)
    (h' : Closes u v gone') : Closes t v fun n => gone n ∨ gone' n := by
  refine ⟨fun {n node} hn => ?_, fun {n old} hn hopen hnot => ?_, h'.nextId.trans h.nextId,
    h'.unresolved.trans h.unresolved, ?_⟩
  · obtain ⟨mid, hmid, hparent, hchanges, hbound, hstatus⟩ := h'.nodes hn
    obtain ⟨old, hold, hparent', hchanges', hbound', hstatus'⟩ := h.nodes hmid
    refine ⟨old, hold, hparent.trans hparent', hchanges.trans hchanges', hbound.trans hbound', ?_⟩
    rcases hstatus with hsame | ⟨hgone, hclosed⟩
    · rw [hsame]
      exact hstatus'.imp_right fun ⟨hgone, hclosed⟩ => ⟨.inl hgone, hclosed⟩
    · exact .inr ⟨.inr hgone, hclosed⟩
  · rw [not_or] at hnot
    obtain ⟨mid, hmid⟩ := h.kept hn hopen hnot.1
    obtain ⟨old', hold, -, -, -, hstatus⟩ := h.nodes hmid
    obtain rfl := Option.some.inj (hn.symm.trans hold)
    have hsame := hstatus.resolve_right fun hg => hnot.1 hg.1
    exact h'.kept hmid (hsame ▸ hopen) hnot.2
  · obtain ⟨rs, hrs⟩ := h.releases
    obtain ⟨rs', hrs'⟩ := h'.releases
    refine ⟨rs ++ rs', hrs.append hrs' (fun hn => ?_) fun hn => ?_⟩
    · obtain ⟨old, hold, hparent, -⟩ := h.nodes hn
      exact ⟨old, hold, hparent⟩
    · obtain ⟨old, hold, -⟩ := h'.nodes hn
      exact ⟨old, hold⟩

theorem Closes.mono {gone gone' : NodeId → Prop} (h : Closes t u gone)
    (hsub : ∀ n, gone n → gone' n) : Closes t u gone' := by
  refine { h with
    nodes := fun {n node} hn => ?_
    kept := fun hn hopen hnot => h.kept hn hopen fun hg => hnot (hsub _ hg) }
  obtain ⟨old, hold, hparent, hchanges, hbound, hstatus⟩ := h.nodes hn
  exact ⟨old, hold, hparent, hchanges, hbound,
    hstatus.imp_right fun ⟨hgone, hclosed⟩ => ⟨hsub n hgone, hclosed⟩⟩

/-- What has left the tree does not come back. -/
theorem Closes.dead {gone : NodeId → Prop} (h : Closes t u gone) (hn : t.node? n = none) :
    u.node? n = none := by
  refine Option.eq_none_iff_forall_ne_some.mpr fun x hx => ?_
  obtain ⟨old, hold, -⟩ := h.nodes hx
  rw [hn] at hold
  cases hold

theorem Closes.of_eq {gone : NodeId → Prop} (hnodes : u.nodes = t.nodes) (hnextId : u.nextId = t.nextId)
    (hunresolved : u.unresolved = t.unresolved) (hreleased : u.released = t.released) :
    Closes t u gone := by
  have hread : ∀ n, u.node? n = t.node? n := fun n => by
    unfold node?
    rw [hnodes]
  refine ⟨fun {n node} hn => ?_, fun {n old} hn _ _ => ?_, hnextId, hunresolved, [],
    .nil (fun n => by rw [hread]) hreleased⟩
  · exact ⟨node, hread n ▸ hn, rfl, rfl, rfl, .inl rfl⟩
  · exact ⟨old, (hread n).trans hn⟩

theorem Closes.setNode {old : Node K} (hn : t.node? n = some old) (new : Node K)
    (hid : new.id = n) (hparent : new.parent = old.parent) (hchanges : new.changes = old.changes)
    (hbound : new.dualBound = old.dualBound) {gone : NodeId → Prop}
    (hstatus : new.status = old.status ∨ gone n ∧ new.status.isClosed = true) :
    Closes t (t.setNode new) gone := by
  refine ⟨fun hm => ?_, fun {m x} hm _ _ => ?_, rfl, rfl, [], .nil (fun m => ?_) rfl⟩
  · rw [node?_setNode] at hm
    split at hm
    · next heq =>
      obtain rfl := Option.some.inj hm
      obtain rfl := hid.symm.trans heq
      exact ⟨old, hn, hparent, hchanges, hbound, hstatus⟩
    · exact ⟨_, hm, rfl, rfl, rfl, .inl rfl⟩
  · rw [node?_setNode]
    split
    · exact ⟨_, rfl⟩
    · exact ⟨_, hm⟩
  · rw [node?_setNode]
    split
    · next heq => rw [← heq, hid, hn]; rfl
    · rfl

variable [Scalar K] {out : NodeId → Prop}

theorem Detaches.closes (hd : Detaches t u n node) (h : t.Wf out) (hn : t.node? n = some node)
    (hclosed : node.status.isClosed = true) (hlive : node.liveChildren = 0) :
    Closes t u fun _ => False := by
  have hempty : t.children n = ∅ := Finset.card_eq_zero.mp ((h.count hn).symm.trans hlive)
  refine ⟨fun hm => ?_, fun {m x} hm hopen _ => ?_, hd.nextId, hd.unresolved, [n], ?_⟩
  · obtain ⟨-, old, hold, rfl⟩ := hd.read hm
    exact ⟨old, hold, rfl, rfl, rfl, .inl rfl⟩
  · refine ⟨_, hd.kept hm ?_⟩
    rintro rfl
    obtain rfl := Option.some.inj (hn.symm.trans hm)
    rw [hclosed] at hopen
    cases hopen
  · refine ⟨hd.released, fun m => ?_, List.nodup_singleton n, fun {c x p} hc hp hmem => ?_⟩
    · rw [List.mem_singleton]
      constructor
      · rintro rfl
        exact ⟨⟨node, hn⟩, hd.dead⟩
      · rintro ⟨⟨x, hx⟩, hnone⟩
        by_contra hne
        rw [hd.kept hx hne] at hnone
        cases hnone
    · have hchild := mem_children.mpr ⟨h.fresh hc, x, hc, hp⟩
      rw [List.mem_singleton.mp hmem, hempty] at hchild
      cases hchild

/-! ## Closing a node -/

omit [Scalar K] in
/-- What one round of `removeUpwards` does at a node of the tree. -/
theorem removeUpwards_at (hn : t.node? n = some node) (fuel : Nat) :
    removeUpwards n (fuel + 1) t =
      if node.status.isClosed && node.liveChildren == 0 then
        match node.parent with
        | none => .ok ⟨⟩ (t.remove n)
        | some q =>
          match (t.remove n).node? q with
          | none => .error (.internal (.noNode q)) (t.remove n)
          | some parent =>
            removeUpwards q fuel
              ((t.remove n).setNode { parent with liveChildren := parent.liveChildren - 1 })
      else .ok ⟨⟩ t := by
  show (match t.node? n with | none => _ | some x => _ : EStateM _ _ _) t = _
  rw [hn]
  dsimp only
  by_cases hcond : (node.status.isClosed && node.liveChildren == 0) = true
  · rw [if_pos hcond, if_pos hcond]
    cases node.parent with
    | none => rfl
    | some q =>
      dsimp only
      show (match (t.remove n).node? q with | none => _ | some parent => _ : EStateM _ _ _) (t.remove n) = _
      cases (t.remove n).node? q <;> rfl
  · rw [if_neg hcond, if_neg hcond]
    rfl

/-- **The ancestors without children are taken out.** Node `n` is closed, and taken out
itself if it has no children; a pruned node has none. -/
theorem removeUpwards_spec {fuel : Nat} (h : t.Wf fun m => out m ∨ m = n) (hn : t.node? n = some node)
    (hclosed : node.status = .branched ∨ node.status.isClosed = true ∧ node.liveChildren = 0)
    (hfuel : t.nodes.size < fuel) :
    ∃ u, Returns (removeUpwards n fuel) t ⟨⟩ u ∧ u.Wf out ∧ Closes t u (fun _ => False) ∧
      u.queue = t.queue ∧ (node.liveChildren = 0 → u.node? n = none) := by
  induction fuel generalizing t n node with
  | zero => exact (Nat.not_lt_zero _ hfuel).elim
  | succ fuel ih =>
    have hisClosed : node.status.isClosed = true := hclosed.elim (fun hb => by rw [hb]; rfl) And.left
    have hround := removeUpwards_at hn fuel
    unfold Returns
    by_cases hlive : node.liveChildren = 0
    · rw [if_pos (by rw [hisClosed, hlive]; rfl)] at hround
      cases hparent : node.parent with
      | none =>
        rw [hparent] at hround
        have hd := detaches_root hn hparent
        refine ⟨t.remove n, hround, ?_, hd.closes h hn hisClosed hlive, rfl, fun _ => hd.dead⟩
        refine (hd.wf h hn hisClosed hlive).mono fun m x hm hout => ?_
        rcases hout with (hout | rfl) | hnone
        · exact hout
        · rw [hd.dead] at hm
          cases hm
        · rw [hparent] at hnone
          cases hnone
      | some q =>
        obtain ⟨parent, hq, hbranched, hlt, -⟩ := h.parent hn hparent
        have hqn := Nat.ne_of_lt hlt
        have hd := detaches_child hn hparent hqn hq (h.id hq)
        have hq' : (t.remove n).node? q = some parent := by
          rw [node?_remove, if_neg fun heq => hqn heq.symm, hq]
        rw [hparent] at hround
        dsimp only at hround
        rw [hq'] at hround
        have hwf := (hd.wf h hn hisClosed hlive).mono fun m x hm hout =>
          show out m ∨ m = q from by
            rcases hout with (hout | rfl) | hp
            · exact .inl hout
            · rw [hd.dead] at hm
              cases hm
            · rw [hparent] at hp
              exact .inr (Option.some.inj hp).symm
        obtain ⟨u, hret, hu, hcloses, hqueue, -⟩ := ih hwf (hd.kept hq hqn) (.inl hbranched)
          (Nat.lt_of_lt_of_le hd.size (Nat.le_of_lt_succ hfuel))
        exact ⟨u, hround.trans hret, hu, ((hd.closes h hn hisClosed hlive).trans hcloses).mono (by simp),
          hqueue.trans hd.queue, fun _ => hcloses.dead hd.dead⟩
    · have hbranched := hclosed.resolve_right fun hc => hlive hc.2
      rw [if_neg (by simp [hlive])] at hround
      refine ⟨t, hround, ?_, .refl t, rfl, fun hnone => (hlive hnone).elim⟩
      refine { h with
        closed := fun {m x} hm hc hnot => ?_
        queued := fun {m x} hm ho hnot => ?_ }
      · by_cases hmn : m = n
        · subst hmn
          obtain rfl := Option.some.inj (hn.symm.trans hm)
          exact ⟨hbranched, Nat.pos_of_ne_zero hlive⟩
        · exact h.closed hm hc fun hout => hout.elim hnot hmn
      · refine h.queued hm ho fun hout => hout.elim hnot ?_
        rintro rfl
        obtain rfl := Option.some.inj (hn.symm.trans hm)
        rw [hbranched] at ho
        cases ho

/-- **Closing a node takes out that node and closed ancestors at most.** The node has left
the queue before. -/
theorem close_spec [IsTrans K (· < ·)] (h : t.Wf out) (hn : t.node? n = some node)
    (hwaits : node.status = .open ∨ node.status = .solving) (hmember : n ∉ t.queue.members)
    (reason : PruneReason) :
    ∃ u, Returns (close n (.pruned reason)) t ⟨⟩ u ∧ u.Wf (fun m => out m ∧ m ≠ n) ∧
      Closes t u (· = n) ∧ u.queue = t.queue ∧ u.node? n = none := by
  have hempty := h.children_eq_empty hn (by rcases hwaits with hs | hs <;> rw [hs] <;> nofun)
  have hnotlisted : n ∉ t.unresolved := fun hmem => by
    obtain ⟨x, hx, hs⟩ := h.listed.mp hmem
    obtain rfl := Option.some.inj (hn.symm.trans hx)
    rcases hwaits with hw | hw <;> rw [hs] at hw <;> cases hw
  have hloose : t.Wf fun m => (out m ∧ m ≠ n) ∨ m = n := h.mono fun m x hm hout => by
    by_cases hmn : m = n
    · exact .inr hmn
    · exact .inl ⟨hout, hmn⟩
  have hid := h.id hn
  have hcount := h.count hn
  have hlive : node.liveChildren = 0 := by rw [hcount, hempty, Finset.card_empty]
  have hreplaces : Replaces t (fun m => (out m ∧ m ≠ n) ∨ m = n) n node
      { node with status := .pruned reason } := by
    refine ⟨hid, rfl, rfl, .refl _, hcount, fun hne => ?_, fun _ hnot => (hnot (.inr rfl)).elim, nofun,
      fun hm => (hmember hm).elim⟩
    rw [hempty] at hne
    exact absurd hne Finset.not_nonempty_empty
  have hread : (t.setNode { node with status := .pruned reason }).node? n =
      some { node with status := .pruned reason } := by
    rw [node?_setNode]
    exact if_pos hid
  have hlisted : n ∈ t.unresolved ↔ (NodeStatus.pruned reason = .unresolved) :=
    ⟨fun hm => (hnotlisted hm).elim, nofun⟩
  obtain ⟨u, hret, hu, hcloses, hqueue, hdead⟩ := removeUpwards_spec (hloose.setNode hn hreplaces hlisted) hread
    (.inr ⟨rfl, hlive⟩) (Nat.lt_succ_self _)
  have hsize : (t.setNode { node with status := .pruned reason }).nodes.size = t.nodes.size :=
    size_setNode hn hid
  rw [hsize] at hret
  have hstep : Closes t (t.setNode { node with status := .pruned reason }) (· = n) :=
    .setNode hn { node with status := .pruned reason } hid rfl rfl rfl (.inr ⟨rfl, rfl⟩)
  refine ⟨u, ?_, hu, (hstep.trans hcloses).mono (by simp), hqueue, hdead hlive⟩
  show (match t.node? n with | none => _ | some x => _ : EStateM _ _ _) t = _
  rw [hn]
  exact hret

/-! ## Taking nodes from the queue -/

/-- Other nodes leave the queue, but not the tree. -/
theorem Wf.withQueue (h : t.Wf out) {queue : Queue K} (hqueue : queue.Wf) {out' : NodeId → Prop}
    (hsub : ∀ {n}, n ∈ queue.members → n ∈ t.queue.members)
    (hsame : ∀ {n e}, t.queue.members[n]? = some e → ¬ out' n → queue.members[n]? = some e)
    (hout : ∀ n, out n → out' n) : Wf { t with queue } out' := by
  refine { h with
    closed := fun hn hc hnot => h.closed hn hc fun ho => hnot (hout _ ho)
    queued := fun {n node} hn hopen hnot => ?_
    isOpen := fun hm => h.isOpen (hsub hm)
    queue := hqueue }
  obtain ⟨e, he, hbound⟩ := h.queued hn hopen fun ho => hnot (hout n ho)
  exact ⟨e, hsame he hnot, hbound⟩

variable {prunable : K → Bool}

/-- What the pruned nodes have in common. -/
def Dominated (t : SearchTree K) (prunable : K → Bool) (n : NodeId) : Prop :=
  ∃ node, t.node? n = some node ∧ node.status = .open ∧ prunable node.dualBound = true

omit [Scalar K] in
theorem Closes.dominated {gone : NodeId → Prop} (h : Closes t u gone) (hn : u.Dominated prunable n) :
    t.Dominated prunable n := by
  obtain ⟨node, hnode, hopen, hprunable⟩ := hn
  obtain ⟨old, hold, -, -, hbound, hstatus⟩ := h.nodes hnode
  refine ⟨old, hold, ?_, hbound ▸ hprunable⟩
  rcases hstatus with hsame | ⟨-, hclosed⟩
  · exact hsame ▸ hopen
  · rw [hopen] at hclosed
    cases hclosed

/-- What taking the next node comes to: the node taken is open and not dominated;
if there is none, no node is open. -/
def Takes (v : SearchTree K) (prunable : K → Bool) (u : SearchTree K) : Option NodeId → Prop
  | none => u = v ∧ ∀ n node, v.node? n = some node → node.status ≠ .open
  | some n => ∃ node, v.node? n = some node ∧ node.id = n ∧ node.status = .open ∧
      prunable node.dualBound = false ∧ u = v.setNode { node with status := .solving }

variable [IsTrans K (· < ·)]

/-- The node at the front of the queue is taken out of it, to be processed. -/
theorem Wf.take (h : t.Wf fun m => m = n) (hn : t.node? n = some node) (hopen : node.status = .open)
    (hmember : n ∉ t.queue.members) :
    (t.setNode { node with status := .solving }).Wf fun _ => False := by
  have hid := h.id hn
  have hcount := h.count hn
  have hempty := h.children_eq_empty hn (by rw [hopen]; nofun)
  have hreplaces : Replaces t (fun m => m = n) n node { node with status := .solving } := by
    refine ⟨hid, rfl, rfl, .refl _, hcount, fun hne => ?_, nofun, nofun, fun hm => (hmember hm).elim⟩
    rw [hempty] at hne
    exact absurd hne Finset.not_nonempty_empty
  have hlisted : n ∈ t.unresolved ↔ (NodeStatus.solving = .unresolved) := by
    refine ⟨fun hm => ?_, nofun⟩
    obtain ⟨x, hx, hs⟩ := h.listed.mp hm
    obtain rfl := Option.some.inj (hn.symm.trans hx)
    rw [hopen] at hs
    cases hs
  have hself : (t.setNode { node with status := .solving }).node? n =
      some { node with status := .solving } := by
    rw [node?_setNode]
    exact if_pos hid
  have hset := h.setNode hn hreplaces hlisted
  refine { hset with
    closed := fun {m x} hm hc _ => ?_
    queued := fun {m x} hm ho _ => ?_ }
  · refine hset.closed hm hc ?_
    rintro rfl
    rw [← Option.some.inj (hself.symm.trans hm)] at hc
    cases hc
  · refine hset.queued hm ho ?_
    rintro rfl
    rw [← Option.some.inj (hself.symm.trans hm)] at ho
    cases ho

omit [IsTrans K (· < ·)] in
/-- What one round of `popLoop` does if the queue is empty. -/
theorem popLoop_none {queue : Queue K} (hpop : t.queue.pop = (none, queue)) (fuel : Nat) :
    Returns (popLoop prunable (fuel + 1)) t none { t with queue } := by
  unfold Returns
  rw [popLoop]
  dsimp only [bind, EStateM.bind, MonadState.get, getThe, MonadStateOf.get, EStateM.get]
  rw [hpop]
  rfl

omit [IsTrans K (· < ·)] in
/-- What one round of `popLoop` does if there is a node to take. -/
theorem popLoop_some {queue : Queue K} (hpop : t.queue.pop = (some n, queue))
    (hn : t.node? n = some node) (fuel : Nat) :
    popLoop prunable (fuel + 1) t =
      if prunable node.dualBound then
        (close n (.pruned .boundExceeded) >>= fun _ => popLoop prunable fuel)
          { t with queue, prunedByBound := t.prunedByBound + 1 }
      else .ok (some n) (SearchTree.setNode { t with queue } { node with status := .solving }) := by
  have hread : node? { t with queue } n = some node := hn
  rw [popLoop]
  dsimp only [bind, EStateM.bind, MonadState.get, getThe, MonadStateOf.get, EStateM.get]
  rw [hpop]
  dsimp only [MonadStateOf.set, EStateM.set, set]
  rw [hread]
  dsimp only
  split <;> rfl

/-- **Taking the next node** closes dominated nodes only. -/
theorem popLoop_spec {fuel : Nat} (h : t.Wf fun _ => False) (hfuel : t.queue.size < fuel) :
    ∃ next u, Returns (popLoop prunable fuel) t next u ∧ u.Wf (fun _ => False) ∧
      ∃ v, Closes t v (t.Dominated prunable) ∧ v.Takes prunable u next := by
  induction fuel generalizing t with
  | zero => exact (Nat.not_lt_zero _ hfuel).elim
  | succ fuel ih =>
    have hpop := Queue.pop_spec h.queue
    cases hp : t.queue.pop with
    | mk next queue =>
      rw [hp] at hpop
      cases next with
      | none =>
        obtain ⟨hempty, hmembers, hqueue⟩ := hpop
        have hwf : Wf { t with queue } fun _ => False :=
          h.withQueue hqueue (fun hm => hmembers ▸ hm) (fun he _ => by rw [hmembers]; exact he)
            fun _ ho => ho
        refine ⟨none, { t with queue }, ?_, hwf, { t with queue }, .of_eq rfl rfl rfl rfl, rfl,
          fun n node hn hopen => ?_⟩
        · exact popLoop_none hp fuel
        · obtain ⟨e, he, -⟩ := hwf.queued hn hopen not_false
          refine hempty n (hmembers ▸ Std.TreeMap.mem_iff_isSome_getElem?.mpr ?_)
          rw [he]
          rfl
      | some n =>
        obtain ⟨hmem, hmembers, hqueue⟩ := hpop
        have hnot : n ∉ queue.members := by
          rw [hmembers]
          simp
        have hwf : Wf { t with queue } fun m => m = n := by
          refine h.withQueue hqueue (fun hm => ?_) (fun {m e} he hne => ?_) fun _ => False.elim
          · rw [hmembers] at hm
            exact mem_of_mem_erase hm
          · rw [hmembers, Std.TreeMap.getElem?_erase, if_neg, he]
            exact fun heq => hne (Nat.compare_eq_eq.mp heq).symm
        obtain ⟨node, hnode, hopen⟩ := h.isOpen hmem
        have hround := @popLoop_some _ _ _ _ _ prunable _ hp hnode fuel
        unfold Returns
        cases hprunable : prunable node.dualBound with
        | false =>
          rw [hprunable, if_neg (by simp)] at hround
          exact ⟨some n, _, hround, hwf.take hnode hopen hnot, { t with queue }, .of_eq rfl rfl rfl rfl,
            node, hnode, h.id hnode, hopen, hprunable, rfl⟩
        | true =>
          rw [hprunable, if_pos rfl] at hround
          have hwf' : Wf { t with queue, prunedByBound := t.prunedByBound + 1 } (fun m => m = n) :=
            { hwf with }
          obtain ⟨v, hclose, hv, hcloses, hsame, -⟩ := close_spec hwf' hnode (.inl hopen) hnot .boundExceeded
          have hsize : v.queue.size < fuel := by
            have hless : v.queue.size = t.queue.size - 1 := by
              unfold Queue.size
              rw [hsame, hmembers, Std.TreeMap.size_erase, if_pos (Std.TreeMap.mem_iff_contains.mp hmem)]
            have hpos : 0 < t.queue.size := by
              refine Nat.pos_of_ne_zero fun hzero => ?_
              have hempty : t.queue.members.isEmpty = true := by
                rw [Std.TreeMap.isEmpty_eq_size_eq_zero]
                simpa [Queue.size] using hzero
              exact Std.TreeMap.isEmpty_iff_forall_not_mem.mp hempty n hmem
            omega
          obtain ⟨next, u, hrest, hu, w, hcloses', hnext⟩ := ih (hv.mono fun m _ _ hm => hm.2 hm.1) hsize
          have hfirst : Closes t v (t.Dominated prunable) := by
            have hstart : Closes t { t with queue, prunedByBound := t.prunedByBound + 1 }
              (t.Dominated prunable) := .of_eq rfl rfl rfl rfl
            refine (hstart.trans hcloses).mono fun m hm => ?_
            rcases hm with hm | rfl
            · exact hm
            · exact ⟨node, hnode, hopen, hprunable⟩
          refine ⟨next, u, hround.trans (hclose.andThen hrest), hu, w, ?_, hnext⟩
          exact (hfirst.trans hcloses').mono fun m hm => hm.elim id fun hm => hfirst.dominated hm

theorem popNext_spec (h : t.Wf fun _ => False) (prunable : K → Bool) :
    ∃ next u, Returns (popNext prunable) t next u ∧ u.Wf (fun _ => False) ∧
      ∃ v, Closes t v (t.Dominated prunable) ∧ v.Takes prunable u next :=
  popLoop_spec h (Nat.lt_succ_self _)

/-- Nodes that have left the queue are closed one by one. -/
theorem closeAll_spec {ids : List NodeId} (hnodup : ids.Nodup) (h : t.Wf (· ∈ ids))
    (hmembers : ∀ n ∈ ids, n ∉ t.queue.members)
    (hopen : ∀ n ∈ ids, ∃ node, t.node? n = some node ∧ node.status = .open) (reason : PruneReason) :
    ∃ u, Returns (ids.forM fun id => close id (.pruned reason)) t ⟨⟩ u ∧ u.Wf (fun _ => False) ∧
      Closes t u (· ∈ ids) ∧ u.queue = t.queue := by
  induction ids generalizing t with
  | nil =>
    exact ⟨t, rfl, h.mono fun n _ _ hn => (List.not_mem_nil hn).elim,
      (Closes.refl _).mono fun _ => False.elim, rfl⟩
  | cons n ids ih =>
    obtain ⟨hn, hnodup'⟩ := List.nodup_cons.mp hnodup
    obtain ⟨node, hnode, hstatus⟩ := hopen n List.mem_cons_self
    obtain ⟨v, hclose, hv, hcloses, hqueue, -⟩ := close_spec h hnode (.inl hstatus)
      (hmembers n List.mem_cons_self) reason
    have hv' : v.Wf (· ∈ ids) := hv.mono fun m _ _ hm => (List.mem_cons.mp hm.1).resolve_left hm.2
    have hopen' : ∀ m ∈ ids, ∃ node, v.node? m = some node ∧ node.status = .open := by
      intro m hm
      obtain ⟨old, hold, hs⟩ := hopen m (List.mem_cons_of_mem _ hm)
      have hmn : ¬ m = n := fun heq => hn (heq ▸ hm)
      obtain ⟨x, hx⟩ := hcloses.kept hold (by rw [hs]; rfl) hmn
      obtain ⟨old', hold', -, -, -, hsame⟩ := hcloses.nodes hx
      obtain rfl := Option.some.inj (hold.symm.trans hold')
      exact ⟨x, hx, (hsame.resolve_right fun hg => hmn hg.1).trans hs⟩
    obtain ⟨u, hrest, hu, hcloses', hqueue'⟩ := ih hnodup' hv'
      (fun m hm => hqueue ▸ hmembers m (List.mem_cons_of_mem _ hm)) hopen'
    exact ⟨u, hclose.andThen hrest, hu, (hcloses.trans hcloses').mono fun m hm => List.mem_cons.mpr hm,
      hqueue'.trans hqueue⟩

/-- Nodes that leave the queue together are closed. -/
theorem closeQueued_spec (h : t.Wf fun _ => False) {ids : List NodeId} {queue : Queue K}
    (hqueue : queue.Wf) (hnodup : ids.Nodup) (hids : ∀ n ∈ ids, n ∈ t.queue.members)
    (hmembers : ∀ n : NodeId, queue.members[n]? = if n ∈ ids then none else t.queue.members[n]?)
    (reason : PruneReason) :
    ∃ u, Returns (ids.forM fun id => close id (.pruned reason)) { t with queue } ⟨⟩ u ∧
      u.Wf (fun _ => False) ∧ Closes t u (· ∈ ids) := by
  have hwf : Wf { t with queue } (· ∈ ids) := by
    refine h.withQueue hqueue (fun {n} hm => ?_) (fun {n e} he hnot => ?_) fun _ => False.elim
    · rw [Std.TreeMap.mem_iff_isSome_getElem?, hmembers] at hm
      split at hm
      · cases hm
      · exact Std.TreeMap.mem_iff_isSome_getElem?.mpr hm
    · rw [hmembers, if_neg hnot, he]
  have hgone : ∀ n ∈ ids, n ∉ queue.members := by
    intro n hn hm
    rw [Std.TreeMap.mem_iff_isSome_getElem?, hmembers, if_pos hn] at hm
    cases hm
  obtain ⟨u, hret, hu, hcloses, -⟩ := closeAll_spec hnodup hwf hgone (fun n hn => h.isOpen (hids n hn)) reason
  have hstart : Closes t { t with queue } (· ∈ ids) := .of_eq rfl rfl rfl rfl
  exact ⟨u, hret, hu, (hstart.trans hcloses).mono fun n hn => hn.elim id id⟩

/-- **Pruning** closes dominated nodes only. -/
theorem pruneDominated_spec (h : t.Wf fun _ => False) (prunable : K → Bool) :
    ∃ count u, Returns (pruneDominated prunable) t count u ∧ u.Wf (fun _ => False) ∧
      Closes t u (t.Dominated prunable) := by
  obtain ⟨hremoved, hmembers, hqueue⟩ := Queue.prune_spec h.queue prunable
  have hids : ∀ n ∈ (t.queue.prune prunable).1, n ∈ t.queue.members := fun n hn => by
    obtain ⟨e, he, -⟩ := (hremoved n).mp hn
    exact Std.TreeMap.mem_iff_isSome_getElem?.mpr (by rw [he]; rfl)
  obtain ⟨u, hret, hu, hcloses⟩ := closeQueued_spec h hqueue (Queue.prune_nodup _ _) hids hmembers
    .boundExceeded
  refine ⟨(t.queue.prune prunable).1.length,
    { u with prunedByBound := u.prunedByBound + (t.queue.prune prunable).1.length },
    hret.andThen rfl, { hu with }, ?_⟩
  · have hend : Closes u { u with
        prunedByBound := u.prunedByBound + (t.queue.prune prunable).1.length } (t.Dominated prunable) :=
      .of_eq rfl rfl rfl rfl
    refine (hcloses.trans hend).mono fun n hn => hn.elim (fun hn => ?_) id
    obtain ⟨e, he, hprunable⟩ := (hremoved n).mp hn
    obtain ⟨node, hnode, hopen⟩ := h.isOpen (hids n hn)
    obtain ⟨e', he', hbound⟩ := h.queued hnode hopen not_false
    obtain rfl := Option.some.inj (he.symm.trans he')
    exact ⟨node, hnode, hopen, hbound ▸ hprunable⟩

/-- **Abandoning the search** closes the open nodes only. -/
theorem abandonOpen_spec (h : t.Wf fun _ => False) :
    ∃ u, Returns abandonOpen t ⟨⟩ u ∧ u.Wf (fun _ => False) ∧
      Closes t u fun n => ∃ node, t.node? n = some node ∧ node.status = .open := by
  obtain ⟨hnodup, hids, hempty, hqueue⟩ := Queue.drain_spec t.queue
  have hmembers : ∀ n : NodeId, t.queue.drain.2.members[n]? =
      if n ∈ t.queue.drain.1 then none else t.queue.members[n]? := by
    intro n
    rw [Std.TreeMap.getElem?_eq_none (hempty n)]
    split
    · rfl
    · next hn => rw [Std.TreeMap.getElem?_eq_none fun hm => hn ((hids n).mpr hm)]
  obtain ⟨u, hret, hu, hcloses⟩ := closeQueued_spec h hqueue hnodup (fun n hn => (hids n).mp hn) hmembers
    .abandoned
  exact ⟨u, hret, hu, hcloses.mono fun n hn => h.isOpen ((hids n).mp hn)⟩

/-! ## The node being processed -/

/-- A node that could be neither solved nor split is kept for the dual bound. -/
theorem markUnresolved_spec (h : t.Wf out) (hn : t.node? n = some node)
    (hbusy : node.status = .solving) :
    Returns (markUnresolved n) t ⟨⟩
        { t.setNode { node with status := .unresolved } with unresolved := n :: t.unresolved } ∧
      Wf { t.setNode { node with status := .unresolved } with unresolved := n :: t.unresolved } out := by
  have hid := h.id hn
  have hcount := h.count hn
  have hempty := h.children_eq_empty hn (by rw [hbusy]; nofun)
  have hreplaces : Replaces t out n node { node with status := .unresolved } := by
    refine ⟨hid, rfl, rfl, .refl _, hcount, fun hne => ?_, nofun, nofun, fun hm => ?_⟩
    · rw [hempty] at hne
      exact absurd hne Finset.not_nonempty_empty
    · obtain ⟨x, hx, hopen⟩ := h.isOpen hm
      obtain rfl := Option.some.inj (hn.symm.trans hx)
      rw [hbusy] at hopen
      cases hopen
  refine ⟨?_, h.replace hn hreplaces ⟨fun _ => rfl, fun _ => List.mem_cons_self⟩ fun m hm => ?_⟩
  · show (match t.node? n with | none => _ | some x => _ : EStateM _ _ _) t = _
    rw [hn]
    rfl
  · rw [List.mem_cons, or_iff_right hm]

omit [IsTrans K (· < ·)] [Scalar K] in
theorem modifyNode_eq (hn : t.node? n = some node) (f : Node K → Node K) :
    t.modifyNode n f = t.setNode (f node) := by
  unfold modifyNode
  rw [hn]

theorem Wf.raiseBound (h : t.Wf out) (hn : t.node? n = some node) (hbusy : node.status = .solving)
    (bound : K) : (t.modifyNode n (·.raiseBound bound)).Wf out := by
  obtain ⟨hid, hparent, hdepth, hstatus, hlive, -⟩ := node.raiseBound_place bound
  rw [modifyNode_eq hn]
  exact h.update hn hbusy hid hparent hdepth (node.raised_raiseBound bound) hlive (hstatus.trans hbusy)

/-- What propagation finds is appended to the changes of the node. -/
theorem recordChanges_spec (h : t.Wf out) (hn : t.node? n = some node) (hbusy : node.status = .solving)
    (changes : List (BoundChange K)) :
    Returns (recordChanges n changes) t ⟨⟩ (t.setNode { node with changes := node.changes ++ changes }) ∧
      (t.setNode { node with changes := node.changes ++ changes }).Wf out := by
  refine ⟨?_, h.update hn hbusy rfl rfl rfl (.refl _) rfl hbusy⟩
  show (match t.node? n with | none => _ | some x => _ : EStateM _ _ _) t = _
  rw [hn]
  rfl

end Trees

end BranchAndCut.SearchTree

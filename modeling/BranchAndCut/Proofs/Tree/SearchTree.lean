import Mathlib
import BranchAndCut.Proofs.Tree.Queue
import BranchAndCut.Tree.SearchTree

/-! # The tree keeps its work

A node that is done with stays in the tree as long as it has children there, and counts
them. So the ancestors of every node that is still to be worked on are there, and a
path through the tree leads to the root. A node is open exactly while it is in the
queue, with its own bound, and bounds only rise on the way down. -/

namespace BranchAndCut

/-- One bound is at least another: it is the same, or greater. -/
def Raised {K : Type} [LT K] (a b : K) : Prop := a = b ∨ a < b

theorem Raised.refl {K : Type} [LT K] (a : K) : Raised a a := .inl rfl

theorem Raised.trans {K : Type} [LT K] [IsTrans K (· < ·)] {a b c : K} (hab : Raised a b)
    (hbc : Raised b c) : Raised a c := by
  rcases hab with rfl | hab
  · exact hbc
  · rcases hbc with rfl | hbc
    · exact .inr hab
    · exact .inr (IsTrans.trans _ _ _ hab hbc)

theorem Node.raised_raiseBound {K : Type} [Scalar K] (node : Node K) (bound : K) :
    Raised node.dualBound (node.raiseBound bound).dualBound := by
  unfold raiseBound
  split
  · next hlt => exact .inr hlt
  · exact .refl _

/-- Raising the bound of a node leaves it in its place. -/
theorem Node.raiseBound_place {K : Type} [Scalar K] (node : Node K) (bound : K) :
    (node.raiseBound bound).id = node.id ∧ (node.raiseBound bound).parent = node.parent ∧
      (node.raiseBound bound).depth = node.depth ∧ (node.raiseBound bound).status = node.status ∧
      (node.raiseBound bound).liveChildren = node.liveChildren ∧
      (node.raiseBound bound).changes = node.changes := by
  unfold raiseBound
  split <;> exact ⟨rfl, rfl, rfl, rfl, rfl, rfl⟩

namespace SearchTree

section Trees

variable {K : Type} {t u : SearchTree K} {n q : NodeId} {node : Node K}

/-! ## Reading nodes -/

theorem node?_setNode (t : SearchTree K) (m : Node K) (n : NodeId) :
    (t.setNode m).node? n = if m.id = n then some m else t.node? n := by
  unfold node? setNode
  rw [Std.TreeMap.getElem?_insert]
  simp only [Nat.compare_eq_eq]

theorem size_setNode {old : Node K} (hn : t.node? n = some old) {new : Node K} (hid : new.id = n) :
    (t.setNode new).nodes.size = t.nodes.size := by
  unfold node? at hn
  unfold setNode
  have hmem : t.nodes.contains new.id = true := by
    rw [← Std.TreeMap.mem_iff_contains, Std.TreeMap.mem_iff_isSome_getElem?, hid, hn]
    rfl
  rw [Std.TreeMap.size_insert, if_pos hmem]

/-- The children of a node that are in the tree. -/
def children (t : SearchTree K) (q : NodeId) : Finset NodeId :=
  (Finset.range t.nextId).filter fun n => (t.node? n).bind Node.parent = some q

theorem mem_children : n ∈ t.children q ↔
    n < t.nextId ∧ ∃ node, t.node? n = some node ∧ node.parent = some q := by
  unfold children
  rw [Finset.mem_filter, Finset.mem_range, Option.bind_eq_some_iff]

/-! ## The invariant -/

variable [Scalar K]

/-- What holds of the tree between its operations. The nodes in `out` are on their way
out: they may have left the queue though they are marked as open, or be closed without
children. -/
structure Wf (t : SearchTree K) (out : NodeId → Prop) : Prop where
  id : ∀ {n node}, t.node? n = some node → node.id = n
  fresh : ∀ {n node}, t.node? n = some node → n < t.nextId
  parent : ∀ {n node q}, t.node? n = some node → node.parent = some q →
    ∃ parent, t.node? q = some parent ∧ parent.status = .branched ∧ q < n ∧
      node.depth = parent.depth + 1 ∧ Raised parent.dualBound node.dualBound
  root : ∀ {n node}, t.node? n = some node → node.parent = none → node.depth = 0
  count : ∀ {q parent}, t.node? q = some parent → parent.liveChildren = (t.children q).card
  closed : ∀ {n node}, t.node? n = some node → node.status.isClosed = true → ¬ out n →
    node.status = .branched ∧ 0 < node.liveChildren
  queued : ∀ {n node}, t.node? n = some node → node.status = .open → ¬ out n →
    ∃ e, t.queue.members[n]? = some e ∧ e.bound = node.dualBound
  isOpen : ∀ {n}, n ∈ t.queue.members → ∃ node, t.node? n = some node ∧ node.status = .open
  listed : ∀ {n}, n ∈ t.unresolved ↔ ∃ node, t.node? n = some node ∧ node.status = .unresolved
  queue : t.queue.Wf

variable {out : NodeId → Prop}

/-- Only nodes of the tree can be on their way out. -/
theorem Wf.mono (h : t.Wf out) {out' : NodeId → Prop}
    (hout : ∀ n node, t.node? n = some node → out n → out' n) : t.Wf out' :=
  { h with
    closed := fun hn hclosed hnot => h.closed hn hclosed fun ho => hnot (hout _ _ hn ho)
    queued := fun hn hopen hnot => h.queued hn hopen fun ho => hnot (hout _ _ hn ho) }

/-- A node with children is branched. -/
theorem Wf.branched (h : t.Wf out) (hn : t.node? n = some node) (hne : (t.children n).Nonempty) :
    node.status = .branched := by
  obtain ⟨c, hc⟩ := hne
  obtain ⟨-, child, hchild, hparent⟩ := mem_children.mp hc
  obtain ⟨parent, hn', hbranched, -⟩ := h.parent hchild hparent
  obtain rfl := Option.some.inj (hn.symm.trans hn')
  exact hbranched

/-- Only closed nodes have children. -/
theorem Wf.children_eq_empty (h : t.Wf out) (hn : t.node? n = some node)
    (hopen : node.status ≠ .branched) : t.children n = ∅ :=
  Finset.not_nonempty_iff_eq_empty.mp fun hne => hopen (h.branched hn hne)

/-- What a replacement of a node by one in the same place has to respect. -/
structure Replaces (t : SearchTree K) (out : NodeId → Prop) (n : NodeId) (old new : Node K) : Prop where
  id : new.id = n
  parent : new.parent = old.parent
  depth : new.depth = old.depth
  bound : Raised old.dualBound new.dualBound
  live : new.liveChildren = (t.children n).card
  above : (t.children n).Nonempty → new.status = .branched ∧ new.dualBound = old.dualBound
  closed : new.status.isClosed = true → ¬ out n → new.status = .branched ∧ 0 < new.liveChildren
  queued : new.status = .open → ¬ out n → ∃ e, t.queue.members[n]? = some e ∧ e.bound = new.dualBound
  isOpen : n ∈ t.queue.members → new.status = .open

/-- A node is replaced, and the list of the unresolved nodes kept up. -/
theorem Wf.replace [IsTrans K (· < ·)] (h : t.Wf out) {old new : Node K} (hn : t.node? n = some old)
    (hr : Replaces t out n old new) {unresolved : List NodeId}
    (hself : n ∈ unresolved ↔ new.status = .unresolved)
    (hrest : ∀ m, m ≠ n → (m ∈ unresolved ↔ m ∈ t.unresolved)) :
    Wf { t.setNode new with unresolved } out := by
  have hid := hr.id
  have hread : ∀ {m node}, (t.setNode new).node? m = some node →
      (m = n ∧ node = new) ∨ (m ≠ n ∧ t.node? m = some node) := by
    intro m node hm
    rw [node?_setNode, hid] at hm
    split at hm
    · next heq => exact .inl ⟨heq.symm, (Option.some.inj hm).symm⟩
    · next hne => exact .inr ⟨fun heq => hne heq.symm, hm⟩
  have hnew : (t.setNode new).node? n = some new := by rw [node?_setNode, if_pos hid]
  have hother : ∀ {m}, m ≠ n → (t.setNode new).node? m = t.node? m := fun hne => by
    rw [node?_setNode, hid, if_neg fun heq => hne heq.symm]
  have hchildren : ∀ q, (t.setNode new).children q = t.children q := by
    intro q
    unfold children
    refine Finset.filter_congr fun m _ => ?_
    by_cases hmn : m = n
    · rw [hmn, hnew, hn, Option.bind_some, Option.bind_some, hr.parent]
    · rw [hother hmn]
  -- the old parent of a node, as it stands in the new tree
  have hparent : ∀ {m node q}, t.node? m = some node → node.parent = some q →
      ∃ parent, (t.setNode new).node? q = some parent ∧ parent.status = .branched ∧ q < m ∧
        node.depth = parent.depth + 1 ∧ Raised parent.dualBound node.dualBound := by
    intro m node q hm hq
    obtain ⟨parent, hp, hbranched, hlt, hdepth, hraised⟩ := h.parent hm hq
    by_cases hqn : q = n
    · subst hqn
      obtain rfl := Option.some.inj (hn.symm.trans hp)
      obtain ⟨hbranched', hbound⟩ := hr.above ⟨m, mem_children.mpr ⟨h.fresh hm, node, hm, hq⟩⟩
      exact ⟨new, hnew, hbranched', hlt, hr.depth ▸ hdepth, hbound ▸ hraised⟩
    · exact ⟨parent, (hother hqn).trans hp, hbranched, hlt, hdepth, hraised⟩
  refine ⟨fun hm => ?_, fun hm => ?_, fun hm hq => ?_, fun hm hnone => ?_, fun hm => ?_,
    fun hm hc hnot => ?_, fun hm ho hnot => ?_, fun {m} hm => ?_, fun {m} => ?_, h.queue⟩
  · rcases hread hm with ⟨rfl, rfl⟩ | ⟨-, hm⟩
    · exact hid
    · exact h.id hm
  · rcases hread hm with ⟨rfl, -⟩ | ⟨-, hm⟩
    · exact h.fresh hn
    · exact h.fresh hm
  · rcases hread hm with ⟨rfl, rfl⟩ | ⟨-, hm⟩
    · obtain ⟨parent, hp, hbranched, hlt, hdepth, hraised⟩ := hparent hn (hr.parent ▸ hq)
      exact ⟨parent, hp, hbranched, hlt, hr.depth.trans hdepth, hraised.trans hr.bound⟩
    · exact hparent hm hq
  · rcases hread hm with ⟨rfl, rfl⟩ | ⟨-, hm⟩
    · exact hr.depth.trans (h.root hn (hr.parent ▸ hnone))
    · exact h.root hm hnone
  · refine Eq.trans ?_ (congrArg Finset.card (hchildren _).symm)
    rcases hread hm with ⟨rfl, rfl⟩ | ⟨-, hm⟩
    · exact hr.live
    · exact h.count hm
  · rcases hread hm with ⟨rfl, rfl⟩ | ⟨-, hm⟩
    · exact hr.closed hc hnot
    · exact h.closed hm hc hnot
  · rcases hread hm with ⟨rfl, rfl⟩ | ⟨-, hm⟩
    · exact hr.queued ho hnot
    · exact h.queued hm ho hnot
  · by_cases hmn : m = n
    · subst hmn
      exact ⟨new, hnew, hr.isOpen hm⟩
    · obtain ⟨x, hx, hopen⟩ := h.isOpen hm
      exact ⟨x, (hother hmn).trans hx, hopen⟩
  · show m ∈ unresolved ↔ ∃ x, (t.setNode new).node? m = some x ∧ x.status = .unresolved
    by_cases hmn : m = n
    · subst hmn
      rw [hnew]
      exact hself.trans ⟨fun hs => ⟨new, rfl, hs⟩, fun ⟨x, hx, hs⟩ => Option.some.inj hx ▸ hs⟩
    · rw [hother hmn]
      exact (hrest m hmn).trans h.listed

theorem Wf.setNode [IsTrans K (· < ·)] (h : t.Wf out) {old new : Node K} (hn : t.node? n = some old)
    (hr : Replaces t out n old new) (hlisted : n ∈ t.unresolved ↔ new.status = .unresolved) :
    (t.setNode new).Wf out := h.replace hn hr hlisted fun _ _ => Iff.rfl

/-! ## Taking out a node -/

/-- A node is taken out, and its parent counts one child less. -/
structure Detaches (t u : SearchTree K) (n : NodeId) (node : Node K) : Prop where
  nodes : ∀ m, u.node? m = if m = n then none else (t.node? m).map fun x =>
    if node.parent = some m then { x with liveChildren := x.liveChildren - 1 } else x
  size : u.nodes.size < t.nodes.size
  nextId : u.nextId = t.nextId
  released : u.released = n :: t.released
  unresolved : u.unresolved = t.unresolved
  queue : u.queue = t.queue

/-- Takes a node out of the tree. -/
def remove (t : SearchTree K) (id : NodeId) : SearchTree K :=
  { t with nodes := t.nodes.erase id, released := id :: t.released }

omit [Scalar K] in
theorem node?_remove (t : SearchTree K) (id n : NodeId) :
    (t.remove id).node? n = if id = n then none else t.node? n := by
  unfold node? remove
  rw [Std.TreeMap.getElem?_erase]
  simp only [Nat.compare_eq_eq]

omit [Scalar K] in
theorem size_remove (hn : t.node? n = some node) : (t.remove n).nodes.size < t.nodes.size := by
  have hmem : n ∈ t.nodes := by
    rw [Std.TreeMap.mem_iff_isSome_getElem?]
    unfold node? at hn
    rw [hn]
    rfl
  have hpos : 0 < t.nodes.size := by
    refine Nat.pos_of_ne_zero fun hzero => ?_
    have hempty : t.nodes.isEmpty = true := by
      rw [Std.TreeMap.isEmpty_eq_size_eq_zero, hzero]
      rfl
    exact Std.TreeMap.isEmpty_iff_forall_not_mem.mp hempty n hmem
  show (t.nodes.erase n).size < t.nodes.size
  rw [Std.TreeMap.size_erase, if_pos (Std.TreeMap.mem_iff_contains.mp hmem)]
  omega

omit [Scalar K] in
theorem detaches_root (hn : t.node? n = some node) (hparent : node.parent = none) :
    Detaches t (t.remove n) n node := by
  refine ⟨fun m => ?_, size_remove hn, rfl, rfl, rfl, rfl⟩
  rw [node?_remove, hparent]
  by_cases hm : n = m
  · rw [if_pos hm, if_pos hm.symm]
  · rw [if_neg hm, if_neg fun heq => hm heq.symm]
    cases t.node? m <;> rfl

omit [Scalar K] in
theorem detaches_child (hn : t.node? n = some node) (hparent : node.parent = some q) (hqn : q ≠ n)
    {parent : Node K} (hq : t.node? q = some parent) (hid : parent.id = q) :
    Detaches t ((t.remove n).setNode { parent with liveChildren := parent.liveChildren - 1 }) n node := by
  have hq' : (t.remove n).node? q = some parent := by
    rw [node?_remove, if_neg fun heq => hqn heq.symm, hq]
  refine ⟨fun m => ?_, ?_, rfl, rfl, rfl, rfl⟩
  · rw [node?_setNode, node?_remove, hparent]
    by_cases hmq : q = m
    · subst hmq
      rw [if_pos hid, if_neg hqn, hq]
      simp
    · have hne : ¬ parent.id = m := fun heq => hmq (hid.symm.trans heq)
      rw [if_neg hne]
      by_cases hm : n = m
      · rw [if_pos hm, if_pos hm.symm]
      · rw [if_neg hm, if_neg fun heq => hm heq.symm]
        cases t.node? m with
        | none => rfl
        | some x => simp [hmq]
  · have hsize := @size_setNode _ _ _ _ hq' { parent with liveChildren := parent.liveChildren - 1 } hid
    rw [hsize]
    exact size_remove hn

omit [Scalar K] in
theorem Detaches.dead (hd : Detaches t u n node) : u.node? n = none := by rw [hd.nodes, if_pos rfl]

omit [Scalar K] in
/-- The other nodes stay, up to what they count. -/
theorem Detaches.read (hd : Detaches t u n node) {m : NodeId} {x : Node K} (hm : u.node? m = some x) :
    m ≠ n ∧ ∃ old, t.node? m = some old ∧ x = { old with
      liveChildren := if node.parent = some m then old.liveChildren - 1 else old.liveChildren } := by
  rw [hd.nodes] at hm
  split at hm
  · cases hm
  · next hne =>
    obtain ⟨old, hold, hx⟩ := Option.map_eq_some_iff.mp hm
    refine ⟨hne, old, hold, ?_⟩
    rw [← hx]
    split <;> rfl

omit [Scalar K] in
theorem Detaches.kept (hd : Detaches t u n node) {m : NodeId} {old : Node K} (hm : t.node? m = some old)
    (hne : m ≠ n) : u.node? m = some { old with
      liveChildren := if node.parent = some m then old.liveChildren - 1 else old.liveChildren } := by
  rw [hd.nodes, if_neg hne, hm, Option.map_some]
  split <;> rfl

omit [Scalar K] in
theorem Detaches.children (hd : Detaches t u n node) (q : NodeId) :
    u.children q = (t.children q).erase n := by
  ext c
  rw [Finset.mem_erase, mem_children, mem_children, hd.nextId]
  constructor
  · rintro ⟨hlt, x, hc, hparent⟩
    obtain ⟨hne, old, hold, rfl⟩ := hd.read hc
    exact ⟨hne, hlt, old, hold, hparent⟩
  · rintro ⟨hne, hlt, x, hc, hparent⟩
    exact ⟨hlt, _, hd.kept hc hne, hparent⟩

/-- A closed node without children can be taken out; then its parent may be closed
without children. -/
theorem Detaches.wf (hd : Detaches t u n node) (h : t.Wf out) (hn : t.node? n = some node)
    (hclosed : node.status.isClosed = true) (hlive : node.liveChildren = 0) :
    u.Wf fun m => out m ∨ node.parent = some m := by
  have hempty : t.children n = ∅ := Finset.card_eq_zero.mp ((h.count hn).symm.trans hlive)
  refine ⟨fun hm => ?_, fun hm => ?_, fun {m x q} hm hq => ?_, fun hm hnone => ?_, fun {m x} hm => ?_,
    fun {m x} hm hc hnot => ?_, fun {m x} hm ho hnot => ?_, fun {m} hm => ?_, fun {m} => ?_, ?_⟩
  · obtain ⟨-, old, hold, rfl⟩ := hd.read hm
    have hid := h.id hold
    exact hid
  · obtain ⟨-, old, hold, rfl⟩ := hd.read hm
    exact hd.nextId ▸ h.fresh hold
  · obtain ⟨-, old, hold, rfl⟩ := hd.read hm
    obtain ⟨parent, hp, hbranched, hlt, hdepth, hraised⟩ := h.parent hold hq
    refine ⟨_, hd.kept hp ?_, hbranched, hlt, hdepth, hraised⟩
    rintro rfl
    have hmem := mem_children.mpr ⟨h.fresh hold, old, hold, hq⟩
    rw [hempty] at hmem
    cases hmem
  · obtain ⟨-, old, hold, rfl⟩ := hd.read hm
    have hroot := h.root hold hnone
    exact hroot
  · obtain ⟨-, old, hold, rfl⟩ := hd.read hm
    rw [hd.children]
    have hcount := h.count hold
    by_cases hp : node.parent = some m
    · have hmem : n ∈ t.children m := mem_children.mpr ⟨h.fresh hn, node, hn, hp⟩
      rw [Finset.card_erase_of_mem hmem, ← hcount]
      exact if_pos hp
    · have hnot : n ∉ t.children m := fun hmem => by
        obtain ⟨-, x, hx, hxp⟩ := mem_children.mp hmem
        obtain rfl := Option.some.inj (hn.symm.trans hx)
        exact hp hxp
      rw [Finset.erase_eq_of_notMem hnot, ← hcount]
      exact if_neg hp
  · obtain ⟨-, old, hold, rfl⟩ := hd.read hm
    rw [not_or] at hnot
    obtain ⟨hbranched, hpos⟩ := h.closed hold hc hnot.1
    exact ⟨hbranched, (if_neg hnot.2).symm ▸ hpos⟩
  · obtain ⟨-, old, hold, rfl⟩ := hd.read hm
    rw [hd.queue]
    have hqueued := h.queued hold ho fun hout => hnot (.inl hout)
    exact hqueued
  · rw [hd.queue] at hm
    obtain ⟨x, hx, hopen⟩ := h.isOpen hm
    refine ⟨_, hd.kept hx ?_, hopen⟩
    rintro rfl
    obtain rfl := Option.some.inj (hn.symm.trans hx)
    rw [hopen] at hclosed
    cases hclosed
  · rw [hd.unresolved, h.listed]
    constructor
    · rintro ⟨x, hx, hs⟩
      refine ⟨_, hd.kept hx ?_, hs⟩
      rintro rfl
      obtain rfl := Option.some.inj (hn.symm.trans hx)
      rw [hs] at hclosed
      cases hclosed
    · rintro ⟨x, hx, hs⟩
      obtain ⟨-, old, hold, rfl⟩ := hd.read hx
      exact ⟨old, hold, hs⟩
  · rw [hd.queue]
    exact h.queue

/-! ## The node being processed -/

/-- The node being processed may change in all but its place, and be kept for the dual bound. -/
theorem Wf.update [IsTrans K (· < ·)] (h : t.Wf out) (hn : t.node? n = some node)
    (hbusy : node.status = .solving) {new : Node K} (hid : new.id = node.id)
    (hparent : new.parent = node.parent) (hdepth : new.depth = node.depth)
    (hbound : Raised node.dualBound new.dualBound) (hlive : new.liveChildren = node.liveChildren)
    (hstatus : new.status = .solving) : (t.setNode new).Wf out := by
  have hempty := h.children_eq_empty hn (by rw [hbusy]; nofun)
  refine h.setNode hn ⟨hid.trans (h.id hn), hparent, hdepth, hbound, hlive.trans (h.count hn),
    fun hne => ?_, fun hc => ?_, fun ho => ?_, fun hm => ?_⟩ ?_
  · rw [hempty] at hne
    exact absurd hne Finset.not_nonempty_empty
  · rw [hstatus] at hc
    cases hc
  · rw [hstatus] at ho
    cases ho
  · obtain ⟨x, hx, hopen⟩ := h.isOpen hm
    obtain rfl := Option.some.inj (hn.symm.trans hx)
    rw [hbusy] at hopen
    cases hopen
  · rw [hstatus, h.listed, hn]
    refine ⟨fun ⟨x, hx, hs⟩ => ?_, nofun⟩
    rw [← Option.some.inj hx, hbusy] at hs
    cases hs

/-! ## Paths -/

omit [Scalar K] in
/-- A way through the tree: from the root, each node the parent of the next. -/
inductive Leads (t : SearchTree K) : List NodeId → NodeId → Prop
  | root {n : NodeId} {node : Node K} (hn : t.node? n = some node) (hparent : node.parent = none) :
      Leads t [n] n
  | child {n q : NodeId} {node : Node K} {path : List NodeId} (hn : t.node? n = some node)
      (hparent : node.parent = some q) (hpath : Leads t path q) : Leads t (path ++ [n]) n

/-- The nodes up to a number bound the length of the path to it. -/
def upTo (t : SearchTree K) (n : NodeId) : Finset NodeId :=
  t.nodes.keys.toFinset.filter fun m => m ≤ n

omit [Scalar K] in
theorem mem_upTo {m : NodeId} : m ∈ t.upTo n ↔ (∃ node, t.node? m = some node) ∧ m ≤ n := by
  unfold upTo node?
  rw [Finset.mem_filter, List.mem_toFinset, Std.TreeMap.mem_keys, Std.TreeMap.mem_iff_isSome_getElem?,
    Option.isSome_iff_exists]

omit [Scalar K] in
theorem card_upTo (t : SearchTree K) (n : NodeId) : (t.upTo n).card ≤ t.nodes.size := by
  calc (t.upTo n).card ≤ t.nodes.keys.toFinset.card := Finset.card_filter_le _ _
    _ ≤ t.nodes.keys.length := List.toFinset_card_le _
    _ = t.nodes.size := Std.TreeMap.length_keys

omit [Scalar K] in
/-- One step up a path. -/
theorem pathFrom_succ (hn : t.node? n = some node) (below : List NodeId) (fuel : Nat) :
    t.pathFrom n below (fuel + 1) =
      match node.parent with
      | none => .ok (n :: below)
      | some q => t.pathFrom q (n :: below) fuel := by
  have hread : t.getNode n = .ok node := by
    unfold getNode
    rw [hn]
    rfl
  rw [pathFrom, hread]
  dsimp only [bind, Except.bind]
  cases node.parent <;> rfl

theorem pathFrom_leads (h : t.Wf out) {fuel : Nat} (hn : t.node? n = some node)
    (hfuel : (t.upTo n).card ≤ fuel) (below : List NodeId) :
    ∃ path, t.pathFrom n below (fuel + 1) = .ok (path ++ below) ∧ t.Leads path n ∧
      path.length = node.depth + 1 := by
  induction fuel generalizing n node below with
  | zero =>
    have hmem := mem_upTo.mpr ⟨⟨node, hn⟩, Nat.le_refl n⟩
    rw [Finset.card_eq_zero.mp (Nat.le_zero.mp hfuel)] at hmem
    cases hmem
  | succ fuel ih =>
    have hround := pathFrom_succ hn below (fuel + 1)
    cases hparent : node.parent with
    | none =>
      rw [hparent] at hround
      exact ⟨[n], hround, .root hn hparent, by rw [h.root hn hparent]; rfl⟩
    | some q =>
      rw [hparent] at hround
      obtain ⟨parent, hq, -, hlt, hdepth, -⟩ := h.parent hn hparent
      have hless : (t.upTo q).card < (t.upTo n).card := by
        refine Finset.card_lt_card (Finset.ssubset_iff_of_subset (fun m hm => ?_) |>.mpr ⟨n, ?_, ?_⟩)
        · obtain ⟨hm, hle⟩ := mem_upTo.mp hm
          exact mem_upTo.mpr ⟨hm, hle.trans hlt.le⟩
        · exact mem_upTo.mpr ⟨⟨node, hn⟩, Nat.le_refl n⟩
        · exact fun hm => Nat.not_le_of_lt hlt (mem_upTo.mp hm).2
      obtain ⟨path, hpath, hleads, hlength⟩ := ih hq (by omega) (n :: below)
      refine ⟨path ++ [n], ?_, .child hn hparent hleads, ?_⟩
      · rw [List.append_assoc]
        exact hround.trans hpath
      · rw [List.length_append, hlength, hdepth]
        rfl

/-- **The path to a node** leads through the tree, and is as long as the node is deep. -/
theorem pathTo_leads (h : t.Wf out) (hn : t.node? n = some node) :
    ∃ path, t.pathTo n = .ok path ∧ t.Leads path n ∧ path.length = node.depth + 1 := by
  obtain ⟨path, hpath, hrest⟩ := pathFrom_leads h hn (card_upTo t n) []
  rw [List.append_nil] at hpath
  exact ⟨path, hpath, hrest⟩

end Trees

end SearchTree

end BranchAndCut

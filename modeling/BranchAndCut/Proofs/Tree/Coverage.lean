import BranchAndCut.Proofs.Point
import BranchAndCut.Proofs.Tree.Paths

/-! # Nodes that cover a point

A node covers a point if it is still to be worked on, the point satisfies all bound
changes on its path, and its bound does not rule the value of the point out. Each
operation of the tree passes on what nodes cover, unless it closes the node. -/

namespace BranchAndCut.SearchTree

variable [Rooted ℚ] {t u : SearchTree (Exact ℚ)} {p : Point} {q : Exact ℚ} {n : NodeId}
  {node : Node (Exact ℚ)} {out : NodeId → Prop} {d : BranchingDecision (Exact ℚ)}

/-- A point satisfies every bound change on the path to a node of the tree. -/
inductive Follows (t : SearchTree (Exact ℚ)) (p : Point) : NodeId → Prop
  | root {n : NodeId} {node : Node (Exact ℚ)} (hn : t.node? n = some node)
      (hparent : node.parent = none) (hchanges : ∀ c ∈ node.changes, c.Admits p) : Follows t p n
  | child {n q : NodeId} {node : Node (Exact ℚ)} (hn : t.node? n = some node)
      (hparent : node.parent = some q) (hchanges : ∀ c ∈ node.changes, c.Admits p)
      (hq : Follows t p q) : Follows t p n

theorem Follows.changes (h : t.Follows p n) (hn : t.node? n = some node) :
    ∀ c ∈ node.changes, c.Admits p := by
  cases h with
  | root hn' _ hchanges =>
    obtain rfl := Option.some.inj (hn.symm.trans hn')
    exact hchanges
  | child hn' _ hchanges _ =>
    obtain rfl := Option.some.inj (hn.symm.trans hn')
    exact hchanges

theorem Follows.parent (h : t.Follows p n) (hn : t.node? n = some node) {m : NodeId}
    (hparent : node.parent = some m) : t.Follows p m := by
  cases h with
  | root hn' hnone _ =>
    obtain rfl := Option.some.inj (hn.symm.trans hn')
    rw [hparent] at hnone
    cases hnone
  | child hn' hsome _ hq =>
    obtain rfl := Option.some.inj (hn.symm.trans hn')
    obtain rfl := Option.some.inj (hparent.symm.trans hsome)
    exact hq

theorem Follows.alive (h : t.Follows p n) : ∃ node, t.node? n = some node := by
  cases h with
  | root hn => exact ⟨_, hn⟩
  | child hn => exact ⟨_, hn⟩

/-- The node at its path. -/
theorem Follows.of_parent (hn : t.node? n = some node) (hchanges : ∀ c ∈ node.changes, c.Admits p)
    (hparent : ∀ m, node.parent = some m → t.Follows p m) : t.Follows p n := by
  cases hp : node.parent with
  | none => exact .root hn hp hchanges
  | some m => exact .child hn hp hchanges (hparent m hp)

/-! ## From one tree to the next -/

/-- Paths keep their nodes, and changes are only added. -/
structure Grows (t u : SearchTree (Exact ℚ)) : Prop where
  nextId : t.nextId ≤ u.nextId
  nodes : ∀ {n node}, u.node? n = some node → n < t.nextId → ∃ old, t.node? n = some old ∧
    node.parent = old.parent ∧ ∀ c ∈ old.changes, c ∈ node.changes

omit [Rooted ℚ] in
theorem Grows.refl (t : SearchTree (Exact ℚ)) : Grows t t :=
  ⟨Nat.le_refl _, fun hn _ => ⟨_, hn, rfl, fun _ hc => hc⟩⟩

omit [Rooted ℚ] in
theorem Grows.trans {v : SearchTree (Exact ℚ)} (h : Grows t u) (h' : Grows u v) : Grows t v := by
  refine ⟨h.nextId.trans h'.nextId, fun hn hlt => ?_⟩
  obtain ⟨mid, hmid, hparent, hchanges⟩ := h'.nodes hn (Nat.lt_of_lt_of_le hlt h.nextId)
  obtain ⟨old, hold, hparent', hchanges'⟩ := h.nodes hmid hlt
  exact ⟨old, hold, hparent.trans hparent', fun c hc => hchanges c (hchanges' c hc)⟩

/-- Who satisfies a path satisfied it before it grew. -/
theorem Follows.back (h : u.Follows p n) (hg : Grows t u) (ht : t.Wf out) (hlt : n < t.nextId) :
    t.Follows p n := by
  induction h with
  | root hn hparent hchanges =>
    obtain ⟨old, hold, hparent', hold'⟩ := hg.nodes hn hlt
    exact .root hold (hparent' ▸ hparent) fun c hc => hchanges c (hold' c hc)
  | child hn hparent hchanges _ ih =>
    obtain ⟨old, hold, hparent', hold'⟩ := hg.nodes hn hlt
    have hq := hparent' ▸ hparent
    obtain ⟨parent, hnode, -⟩ := ht.parent hold hq
    exact .child hold hq (fun c hc => hchanges c (hold' c hc)) (ih (ht.fresh hnode))

/-- Who satisfies a path still does, if it satisfies what was added. -/
theorem Follows.forward (h : t.Follows p n) (hu : u.Wf out)
    (hstep : ∀ {m old x}, t.node? m = some old → u.node? m = some x → t.Follows p m →
      x.parent = old.parent ∧ ∀ c ∈ x.changes, c.Admits p)
    {x : Node (Exact ℚ)} (hx : u.node? n = some x) : u.Follows p n := by
  induction h generalizing x with
  | root hn hparent hchanges =>
    obtain ⟨hsame, hadmits⟩ := hstep hn hx (.root hn hparent hchanges)
    exact .root hx (hsame.trans hparent) hadmits
  | child hn hparent hchanges hq ih =>
    obtain ⟨hsame, hadmits⟩ := hstep hn hx (.child hn hparent hchanges hq)
    obtain ⟨parent, hnode, -⟩ := hu.parent hx (hsame.trans hparent)
    exact .child hx (hsame.trans hparent) hadmits (ih hnode)

/-- The point satisfies what was found at the root. -/
def Anchored (t : SearchTree (Exact ℚ)) (p : Point) : Prop :=
  ∀ n node, t.node? n = some node → node.parent = none → ∀ c ∈ node.changes, c.Admits p

theorem Anchored.follows (h : t.Anchored p) (hn : t.node? n = some node)
    (hparent : node.parent = none) : t.Follows p n := .root hn hparent (h n node hn hparent)

/-- The node is still to be worked on, and may hold the point, whose value is given. -/
structure Covers (t : SearchTree (Exact ℚ)) (p : Point) (q : Exact ℚ) (n : NodeId)
    (node : Node (Exact ℚ)) : Prop where
  mem : t.node? n = some node
  waits : node.status.isClosed = false
  bound : node.dualBound ≤ q
  follows : t.Follows p n

/-! ## Closing and pruning -/

section Closing

variable {gone : NodeId → Prop} (hc : Closes t u gone)

include hc

omit [Rooted ℚ] in
theorem Closes.grows : Grows t u := by
  refine ⟨Nat.le_of_eq hc.nextId.symm, fun hn _ => ?_⟩
  obtain ⟨old, hold, hparent, hchanges, -⟩ := hc.nodes hn
  exact ⟨old, hold, hparent, fun c hc => hchanges ▸ hc⟩

theorem Closes.follows (hu : u.Wf out) (h : t.Follows p n) (hn : u.node? n = some node) :
    u.Follows p n := by
  refine h.forward hu (fun hold hx hfollows => ?_) hn
  obtain ⟨old', hold', hparent, hchanges, -⟩ := hc.nodes hx
  obtain rfl := Option.some.inj (hold.symm.trans hold')
  exact ⟨hparent, fun c hc => hfollows.changes hold c (hchanges ▸ hc)⟩

theorem Closes.anchored (h : t.Anchored p) : u.Anchored p := by
  intro n node hn hparent c hc'
  obtain ⟨old, hold, hsame, hchanges, -⟩ := hc.nodes hn
  exact h n old hold (hsame ▸ hparent) c (hchanges ▸ hc')

/-- A node that is not closed covers what it covered. -/
theorem Closes.covers (hu : u.Wf out) (h : t.Covers p q n node) (hnot : ¬ gone n) :
    ∃ x, u.Covers p q n x ∧ x.status = node.status := by
  obtain ⟨x, hx⟩ := hc.kept h.mem h.waits hnot
  obtain ⟨old, hold, -, -, hbound, hstatus⟩ := hc.nodes hx
  obtain rfl := Option.some.inj (h.mem.symm.trans hold)
  have hsame := hstatus.resolve_right fun hg => hnot hg.1
  exact ⟨x, ⟨hx, hsame ▸ h.waits, hbound ▸ h.bound, hc.follows hu h.follows hx⟩, hsame⟩

end Closing

/-- What covers a point is not dominated. -/
theorem Covers.not_dominated (h : t.Covers p q n node) {prunable : Exact ℚ → Bool}
    (hprunable : ∀ b, b ≤ q → prunable b = false) : ¬ t.Dominated prunable n := by
  rintro ⟨node', hn, -, hdominated⟩
  obtain rfl := Option.some.inj (h.mem.symm.trans hn)
  rw [hprunable _ h.bound] at hdominated
  cases hdominated

/-! ## The node being processed -/

section Replacing

variable (hn : t.node? n = some node) {new : Node (Exact ℚ)} (hid : new.id = n)
  (hparent : new.parent = node.parent)

include hn hid hparent

omit [Rooted ℚ] in
theorem setNode_grows (hchanges : ∀ c ∈ node.changes, c ∈ new.changes) :
    Grows t (t.setNode new) := by
  refine ⟨Nat.le_refl _, fun {m x} hm _ => ?_⟩
  rw [node?_setNode, hid] at hm
  split at hm
  · next heq =>
    subst heq
    obtain rfl := Option.some.inj hm
    exact ⟨node, hn, hparent, hchanges⟩
  · exact ⟨x, hm, rfl, fun _ hc => hc⟩

omit hn in
theorem setNode_anchored (h : t.Anchored p)
    (hchanges : node.parent = none → ∀ c ∈ new.changes, c.Admits p) : (t.setNode new).Anchored p := by
  intro m x hm hnone
  rw [node?_setNode, hid] at hm
  split at hm
  · obtain rfl := Option.some.inj hm
    exact hchanges (hparent ▸ hnone)
  · exact h m x hm hnone

theorem setNode_follows (hu : (t.setNode new).Wf out)
    (hchanges : t.Follows p n → ∀ c ∈ new.changes, c.Admits p) {m : NodeId}
    (h : t.Follows p m) : (t.setNode new).Follows p m := by
  obtain ⟨y, hy⟩ : ∃ y, (t.setNode new).node? m = some y := by
    obtain ⟨x, hx⟩ := h.alive
    rw [node?_setNode]
    split
    · exact ⟨_, rfl⟩
    · exact ⟨x, hx⟩
  refine h.forward hu (fun {m old x} hold hx hfollows => ?_) hy
  rw [node?_setNode, hid] at hx
  split at hx
  · next heq =>
    subst heq
    obtain rfl := Option.some.inj hx
    obtain rfl := Option.some.inj (hn.symm.trans hold)
    exact ⟨hparent, hchanges hfollows⟩
  · obtain rfl := Option.some.inj (hold.symm.trans hx)
    exact ⟨rfl, hfollows.changes hold⟩

/-- Other nodes cover what they covered. -/
theorem setNode_covers (hu : (t.setNode new).Wf out)
    (hchanges : t.Follows p n → ∀ c ∈ new.changes, c.Admits p) {m : NodeId}
    {old : Node (Exact ℚ)} (h : t.Covers p q m old) (hne : m ≠ n) :
    (t.setNode new).Covers p q m old := by
  refine ⟨?_, h.waits, h.bound, setNode_follows hn hid hparent hu hchanges h.follows⟩
  rw [node?_setNode, hid, if_neg fun heq => hne heq.symm, h.mem]

end Replacing

/-! ## Splitting -/

section Splitting

variable (hs : Splits t u n node d) (ht : t.Wf fun _ => False) (hn : t.node? n = some node)

include hs hn

omit [Rooted ℚ] in
theorem Splits.grows : Grows t u := by
  refine ⟨hs.nextId ▸ Nat.le_add_right _ _, fun {m y} hm hlt => ?_⟩
  rcases hs.read hm with ⟨rfl, _, rfl⟩ | ⟨spec, hspec, -⟩ | ⟨-, -, hm⟩
  · exact ⟨node, hn, rfl, fun _ hc => hc⟩
  · exact absurd hspec.1 (Nat.not_le_of_lt hlt)
  · exact ⟨y, hm, rfl, fun _ hc => hc⟩

theorem Splits.anchored (h : t.Anchored p) : u.Anchored p := by
  intro m y hm hnone
  rcases hs.read hm with ⟨rfl, _, rfl⟩ | ⟨spec, -, -, hx, -⟩ | ⟨-, -, hm⟩
  · exact h m node hn hnone
  · rw [hx.parent] at hnone
    cases hnone
  · exact h m y hm hnone

include ht

theorem Splits.follows (hu : u.Wf out) {m : NodeId} (h : t.Follows p m) : u.Follows p m := by
  have hsame : ∀ {m old}, t.node? m = some old → ∃ y, u.node? m = some y ∧
      y.parent = old.parent ∧ y.changes = old.changes := by
    intro m old hold
    by_cases hmn : m = n
    · subst hmn
      obtain rfl := Option.some.inj (hn.symm.trans hold)
      obtain ⟨basis, hsplit⟩ := hs.parent
      exact ⟨_, hsplit, rfl, rfl⟩
    · exact ⟨old, hs.kept ht hold hmn, rfl, rfl⟩
  obtain ⟨old, hold⟩ := h.alive
  obtain ⟨y, hy, -⟩ := hsame hold
  refine h.forward hu (fun hold hz hfollows => ?_) hy
  obtain ⟨z, hz', hp, hc⟩ := hsame hold
  obtain rfl := Option.some.inj (hz.symm.trans hz')
  exact ⟨hp, fun c hmem => hfollows.changes hold c (hc ▸ hmem)⟩

/-- Other nodes cover what they covered. -/
theorem Splits.covers (hu : u.Wf out) {m : NodeId} {old : Node (Exact ℚ)}
    (h : t.Covers p q m old) (hne : m ≠ n) : u.Covers p q m old :=
  ⟨hs.kept ht h.mem hne, h.waits, h.bound, hs.follows ht hn hu h.follows⟩

/-- **A point that the node covers is covered by a child**, if it satisfies the
changes of one. -/
theorem Splits.child_covers (hu : u.Wf out) (h : t.Covers p q n node) {spec : ChildSpec (Exact ℚ)}
    (hspec : spec ∈ d.children) (hchanges : ∀ c ∈ spec.changes, c.Admits p) :
    ∃ m x, u.Covers p q m x ∧ x.status = .open := by
  obtain ⟨k, hlt, hget⟩ := List.mem_iff_getElem.mp hspec
  have hnumbered : numbered t.nextId d.children (t.nextId + k) spec := by
    refine ⟨Nat.le_add_right _ _, ?_⟩
    rw [Nat.add_sub_cancel_left, List.getElem?_eq_getElem hlt, hget]
  obtain ⟨x, hx, -, hchild, -⟩ := hs.child hnumbered
  refine ⟨_, x, ⟨hx, by rw [hchild.status]; rfl, hchild.bound ▸ h.bound, ?_⟩, hchild.status⟩
  exact .child hx (hchild.parent.trans (congrArg some (ht.id hn))) (hchild.changes ▸ hchanges)
    (hs.follows ht hn hu h.follows)

end Splitting

/-! ## Paths -/

theorem Leads.follows {path : List NodeId} (h : t.Leads path n) (hp : t.Follows p n) : ∀ m ∈ path, t.Follows p m := by
  induction h with
  | root => exact List.forall_mem_singleton.mpr hp
  | child hn hparent _ ih =>
    exact List.forall_mem_append.mpr ⟨ih (hp.parent hn hparent), List.forall_mem_singleton.mpr hp⟩

end BranchAndCut.SearchTree

import BranchAndCut.Proofs.Order
import BranchAndCut.Proofs.Tree.Children

/-! # No node is lost

The caller of the tree gets numbers of nodes in its answers, and gives them back. A
ledger of these numbers says what the caller may do, and where every node is: no
operation fails on a caller who keeps to it, and every node that was ever created is
waiting, taken, split, kept for the dual bound or released, and only one of these. -/

namespace BranchAndCut

/-- A call of an operation of the tree. -/
inductive TreeOp (K : Type) where
  | popNext (prunable : K → Bool)
  | pushChildren (n : NodeId) (d : BranchingDecision K) (objective : K) (basis : Option SavedBasis)
  | prune (n : NodeId) (reason : PruneReason)
  | markUnresolved (n : NodeId)
  | raiseBound (n : NodeId) (bound : K)
  | recordChanges (n : NodeId) (changes : List (BoundChange K))
  | pruneDominated (prunable : K → Bool)
  | abandonOpen
  | setHasIncumbent (has : Bool)
  | lowestBound
  | drainReleased

/-- What the answers of the operations tell. -/
structure Ledger where
  /-- The nodes created, each with its parent. -/
  created : List (NodeId × Option NodeId) := []
  /-- The nodes taken and not yet given back. -/
  busy : List NodeId := []
  /-- The nodes reported as released. -/
  drained : List NodeId := []

/-- Where a node is. -/
inductive Fate where
  | waiting
  | busy
  | split
  | unresolved
  | released

namespace Ledger

variable {K : Type}

section Calls

variable [Scalar K]

/-- Creates the root. -/
def start (bound : K) : TreeM K Ledger := do
  let root ← SearchTree.createRoot bound
  pure { created := [(root, none)] }

/-- Calls an operation, and notes what it answers. -/
def step (l : Ledger) : TreeOp K → TreeM K Ledger
  | .popNext prunable => do
    match ← SearchTree.popNext prunable with
    | none => pure l
    | some n => pure { l with busy := n :: l.busy }
  | .pushChildren n d objective basis => do
    let ids ← SearchTree.pushChildren n d objective basis
    pure { l with busy := l.busy.erase n, created := l.created ++ ids.map fun id => (id, some n) }
  | .prune n reason => do
    SearchTree.prune n reason
    pure { l with busy := l.busy.erase n }
  | .markUnresolved n => do
    SearchTree.markUnresolved n
    pure { l with busy := l.busy.erase n }
  | .raiseBound n bound => do
    modify (·.modifyNode n (·.raiseBound bound))
    pure l
  | .recordChanges n changes => do
    SearchTree.recordChanges n changes
    pure l
  | .pruneDominated prunable => do
    let _ ← SearchTree.pruneDominated prunable
    pure l
  | .abandonOpen => do
    SearchTree.abandonOpen
    pure l
  | .setHasIncumbent has => do
    modify (·.setHasIncumbent has)
    pure l
  | .lowestBound => do
    let _ ← modifyGet SearchTree.lowestBound
    pure l
  | .drainReleased => do
    let ids ← modifyGet SearchTree.drainReleased
    pure { l with drained := l.drained ++ ids }

/-- What the caller has to keep to: only nodes that are taken are worked on, and
a split makes at least two children. -/
def Allows (l : Ledger) : TreeOp K → Prop
  | .pushChildren n d _ _ => n ∈ l.busy ∧ 2 ≤ d.children.length
  | .prune n _ | .markUnresolved n | .raiseBound n _ | .recordChanges n _ => n ∈ l.busy
  | _ => True

/-- The trees and ledgers that come from one call to create the root and any number
of calls that the ledger allows. -/
inductive Reached (selection : NodeSelection) (bound : K) : SearchTree K → Ledger → Prop
  | start {t : SearchTree K} {l : Ledger}
      (h : Returns (start bound) (SearchTree.new selection) l t) : Reached selection bound t l
  | step {t u : SearchTree K} {l l' : Ledger} {op : TreeOp K} (h : Reached selection bound t l)
      (hallows : l.Allows op) (hop : Returns (l.step op) t l' u) : Reached selection bound u l'

end Calls

variable {t u : SearchTree K} {l : Ledger} {n : NodeId} {node : Node K}

/-- The nodes removed so far, in order. -/
def releases (l : Ledger) (t : SearchTree K) : List NodeId := l.drained ++ t.released.reverse

def Has (l : Ledger) (t : SearchTree K) (n : NodeId) : Fate → Prop
  | .waiting => n ∈ t.queue.members
  | .busy => n ∈ l.busy
  | .split => ∃ node, t.node? n = some node ∧ node.status = .branched ∧ 0 < node.liveChildren
  | .unresolved => n ∈ t.unresolved
  | .released => n ∈ l.releases t

/-- The children of a node that are in the tree, according to the ledger. -/
def liveChildren (l : Ledger) (t : SearchTree K) (n : NodeId) : List (NodeId × Option NodeId) :=
  l.created.filter fun c => c.2 = some n && (t.node? c.1).isSome

/-- **No node is lost, duplicated or freed too early.** -/
structure Accounts [Scalar K] (l : Ledger) (t : SearchTree K) : Prop where
  /-- Every node has exactly one fate. -/
  fate : ∀ c ∈ l.created, ∃! f, l.Has t c.1 f
  /-- The tree holds the nodes that are not released. -/
  live : ∀ n, (∃ node, t.node? n = some node) ↔ n ∈ l.created.map Prod.fst ∧ n ∉ l.releases t
  status : ∀ {n node}, t.node? n = some node →
    (node.status = .open ↔ l.Has t n .waiting) ∧ (node.status = .solving ↔ l.Has t n .busy) ∧
      (node.status = .branched ↔ l.Has t n .split) ∧ (node.status = .unresolved ↔ l.Has t n .unresolved)
  count : ∀ {n node}, t.node? n = some node → node.liveChildren = (l.liveChildren t n).length
  path : ∀ {n node}, t.node? n = some node →
    ∃ path, t.pathTo n = .ok path ∧ t.Leads path n ∧ path.length = node.depth + 1
  once : (l.releases t).Nodup
  /-- Children are released before their parents. -/
  order : ∀ {c p}, (c, some p) ∈ l.created → p ∈ l.releases t → [c, p].Sublist (l.releases t)
  bound : ∀ {n p node}, t.node? n = some node → (n, some p) ∈ l.created →
    ∃ parent, t.node? p = some parent ∧ Raised parent.dualBound node.dualBound
  done : t.numOpen = 0 → l.busy = [] → t.numUnresolved = 0 → t.numNodes = 0

/-! ## What the ledger knows -/

/-- What the ledger says is true of the tree. -/
structure Keeps (l : Ledger) (t : SearchTree K) : Prop where
  created : l.created.map Prod.fst = List.range t.nextId
  parent : ∀ {n node}, t.node? n = some node → (n, node.parent) ∈ l.created
  released : ∀ n, n ∈ l.releases t ↔ n < t.nextId ∧ t.node? n = none
  once : (l.releases t).Nodup
  order : ∀ {c p}, (c, some p) ∈ l.created → p ∈ l.releases t → [c, p].Sublist (l.releases t)
  busy : ∀ n, n ∈ l.busy ↔ ∃ node, t.node? n = some node ∧ node.status = .solving
  busyOnce : l.busy.Nodup

/-- The ledger gives a node one parent. -/
theorem Keeps.parent_eq (h : l.Keeps t) {p : Option NodeId} (hn : t.node? n = some node)
    (hp : (n, p) ∈ l.created) : node.parent = p := by
  have hnodup : (l.created.map Prod.fst).Nodup := h.created ▸ List.nodup_range
  exact congrArg Prod.snd (List.inj_on_of_nodup_map hnodup (h.parent hn) hp rfl)

theorem Keeps.mem_created (h : l.Keeps t) : n ∈ l.created.map Prod.fst ↔ n < t.nextId := by
  rw [h.created, List.mem_range]

/-! ## One call -/

/-- Operations that take nodes out of the tree. -/
theorem Keeps.closes (h : l.Keeps t) {gone : NodeId → Prop} (hc : t.Closes u gone)
    (hgone : ∀ n ∈ l.busy, gone n → u.node? n = none) {busy : List NodeId}
    (hbusy : ∀ n, n ∈ busy ↔ n ∈ l.busy ∧ ¬ gone n) (hnodup : busy.Nodup) :
    Keeps { l with busy } u := by
  obtain ⟨rs, hrs⟩ := hc.releases
  have hlist : releases { l with busy } u = l.releases t ++ rs := by
    unfold releases
    rw [hrs.list, List.reverse_append, List.reverse_reverse, List.append_assoc]
  refine ⟨hc.nextId ▸ h.created, fun hn => ?_, fun n => ?_, ?_, fun {c p} hcp hp => ?_, fun n => ?_,
    hnodup⟩
  · obtain ⟨old, hold, hparent, -⟩ := hc.nodes hn
    exact hparent ▸ h.parent hold
  · rw [hlist, List.mem_append, h.released, hrs.mem, hc.nextId]
    constructor
    · rintro (⟨hlt, hnone⟩ | ⟨⟨x, hx⟩, hnone⟩)
      · exact ⟨hlt, hc.dead hnone⟩
      · exact ⟨h.mem_created.mp (List.mem_map_of_mem (h.parent hx)), hnone⟩
    · rintro ⟨hlt, hnone⟩
      cases hn : t.node? n with
      | none => exact .inl ⟨hlt, rfl⟩
      | some x => exact .inr ⟨⟨x, rfl⟩, hnone⟩
  · rw [hlist]
    refine List.nodup_append.mpr ⟨h.once, hrs.nodup, fun a ha b hb => ?_⟩
    rintro rfl
    obtain ⟨⟨x, hx⟩, -⟩ := (hrs.mem a).mp hb
    rw [((h.released a).mp ha).2] at hx
    cases hx
  · rw [hlist] at hp ⊢
    rcases List.mem_append.mp hp with hp | hp
    · exact (h.order hcp hp).trans (List.sublist_append_left _ _)
    · cases hchild : t.node? c with
      | some x => exact (hrs.order hchild (h.parent_eq hchild hcp) hp).trans (List.sublist_append_right _ _)
      | none =>
        have hlt : c < t.nextId := h.mem_created.mp (List.mem_map_of_mem hcp)
        have hold := (h.released c).mpr ⟨hlt, hchild⟩
        exact (List.singleton_sublist.mpr hold).append (List.singleton_sublist.mpr hp)
  · show n ∈ busy ↔ _
    rw [hbusy, h.busy]
    constructor
    · rintro ⟨⟨x, hx, hsolving⟩, hnot⟩
      obtain ⟨y, hy⟩ := hc.kept hx (by rw [hsolving]; rfl) hnot
      obtain ⟨old, hold, -, -, -, hstatus⟩ := hc.nodes hy
      obtain rfl := Option.some.inj (hx.symm.trans hold)
      exact ⟨y, hy, (hstatus.resolve_right fun hg => hnot hg.1).trans hsolving⟩
    · rintro ⟨y, hy, hsolving⟩
      obtain ⟨old, hold, -, -, -, hstatus⟩ := hc.nodes hy
      have hsame : old.status = .solving := by
        rcases hstatus with hsame | ⟨-, hclosed⟩
        · exact hsame ▸ hsolving
        · rw [hsolving] at hclosed
          cases hclosed
      refine ⟨⟨old, hold, hsame⟩, fun hg => ?_⟩
      rw [hgone n ((h.busy n).mpr ⟨old, hold, hsame⟩) hg] at hy
      cases hy

/-- Operations that take no node out of the tree that the caller has. -/
theorem Keeps.closes_others (h : l.Keeps t) {gone : NodeId → Prop} (hc : t.Closes u gone)
    (hgone : ∀ n, gone n → ∃ node, t.node? n = some node ∧ node.status = .open) : l.Keeps u := by
  have hnot : ∀ n ∈ l.busy, ¬ gone n := fun n hn hg => by
    obtain ⟨x, hx, hsolving⟩ := (h.busy n).mp hn
    obtain ⟨y, hy, hopen⟩ := hgone n hg
    obtain rfl := Option.some.inj (hx.symm.trans hy)
    rw [hopen] at hsolving
    cases hsolving
  exact h.closes hc (fun n hn hg => (hnot n hn hg).elim) (fun n => ⟨fun hn => ⟨hn, hnot n hn⟩, And.left⟩)
    h.busyOnce

/-- Operations that change one node of the tree. -/
theorem Keeps.setNode (h : l.Keeps t) {old : Node K} (hn : t.node? n = some old) (new : Node K)
    (hid : new.id = n) (hparent : new.parent = old.parent) (unresolved : List NodeId) {busy : List NodeId}
    (hself : n ∈ busy ↔ new.status = .solving) (hrest : ∀ m, m ≠ n → (m ∈ busy ↔ m ∈ l.busy))
    (hnodup : busy.Nodup) : Keeps { l with busy } { t.setNode new with unresolved } := by
  have hread : ∀ m, (t.setNode new).node? m = if n = m then some new else t.node? m := fun m => by
    rw [SearchTree.node?_setNode, hid]
  refine ⟨h.created, fun {m x} hm => ?_, fun m => (h.released m).trans ?_, h.once, h.order, fun m => ?_,
    hnodup⟩
  · change (t.setNode new).node? m = some x at hm
    rw [hread] at hm
    split at hm
    · next heq =>
      obtain rfl := Option.some.inj hm
      rw [← heq, hparent]
      exact h.parent hn
    · exact h.parent hm
  · show _ ↔ m < t.nextId ∧ (t.setNode new).node? m = none
    rw [hread]
    split
    · next heq => rw [← heq, hn]; simp
    · rfl
  · show m ∈ busy ↔ ∃ x, (t.setNode new).node? m = some x ∧ x.status = .solving
    rw [hread]
    split
    · next heq =>
      rw [← heq, hself]
      exact ⟨fun hs => ⟨new, rfl, hs⟩, fun ⟨x, hx, hs⟩ => Option.some.inj hx ▸ hs⟩
    · next hne => rw [hrest m fun heq => hne heq.symm, h.busy]

variable [Scalar K]

/-- A split. -/
theorem Keeps.splits (h : l.Keeps t) (ht : t.Wf fun _ => False) {d : BranchingDecision K}
    (hs : t.Splits u n node d) (hn : t.node? n = some node) :
    Keeps { l with
      busy := l.busy.erase n
      created := l.created ++ (List.range' t.nextId d.children.length).map fun id => (id, some n) } u := by
  have hid := ht.id hn
  have hlist : ∀ created busy, releases ⟨created, busy, l.drained⟩ u = l.releases t := fun _ _ => by
    unfold releases
    rw [hs.released]
  have halive : ∀ m, (u.node? m = none ∧ m < t.nextId + d.children.length) ↔
      (t.node? m = none ∧ m < t.nextId) := by
    intro m
    constructor
    · rintro ⟨hnone, hlt⟩
      by_cases hm : m < t.nextId
      · refine ⟨Option.eq_none_iff_forall_ne_some.mpr fun x hx => ?_, hm⟩
        by_cases hmn : m = n
        · obtain ⟨basis, hsplit⟩ := hs.parent
          rw [hmn, hsplit] at hnone
          cases hnone
        · rw [hs.kept ht hx hmn] at hnone
          cases hnone
      · rcases SearchTree.numbered_cases t.nextId d.children m with ⟨spec, hspec, -⟩ | ⟨-, hnot⟩
        · obtain ⟨x, hx, -⟩ := hs.child hspec
          rw [hnone] at hx
          cases hx
        · exact (hnot ⟨Nat.le_of_not_lt hm, hlt⟩).elim
    · rintro ⟨hnone, hlt⟩
      refine ⟨Option.eq_none_iff_forall_ne_some.mpr fun x hx => ?_, Nat.lt_add_right _ hlt⟩
      rcases hs.read hx with ⟨rfl, -⟩ | ⟨spec, hspec, -⟩ | ⟨-, -, hm⟩
      · rw [hn] at hnone
        cases hnone
      · exact Nat.not_le_of_lt hlt hspec.1
      · rw [hm] at hnone
        cases hnone
  refine ⟨?_, fun {m x} hm => ?_, fun m => ?_, ?_, fun {c p} hcp hp => ?_, fun m => ?_,
    h.busyOnce.erase n⟩
  · rw [List.map_append, h.created, List.map_map, hs.nextId, List.range_eq_range', List.range_eq_range',
      ← List.range'_append_1, Nat.zero_add]
    exact congrArg _ (List.map_id _)
  · rw [List.mem_append]
    rcases hs.read hm with ⟨rfl, _, rfl⟩ | ⟨spec, hspec, -, hx, -⟩ | ⟨-, -, hm⟩
    · have hparent := h.parent hn
      exact .inl hparent
    · refine .inr (List.mem_map.mpr ⟨m, List.mem_range'_1.mpr ⟨hspec.1, hspec.lt⟩, ?_⟩)
      rw [hx.parent, hid]
    · exact .inl (h.parent hm)
  · rw [hlist, h.released, hs.nextId, and_comm, and_comm (a := _ < _), halive]
  · rw [hlist]
    exact h.once
  · rw [hlist] at hp ⊢
    rcases List.mem_append.mp hcp with hcp | hcp
    · exact h.order hcp hp
    · obtain ⟨_, -, hpair⟩ := List.mem_map.mp hcp
      obtain rfl : n = p := Option.some.inj (congrArg Prod.snd hpair)
      rw [((h.released n).mp hp).2] at hn
      cases hn
  · show m ∈ l.busy.erase n ↔ _
    rw [h.busyOnce.mem_erase_iff, h.busy]
    constructor
    · rintro ⟨hmn, x, hx, hsolving⟩
      exact ⟨x, hs.kept ht hx hmn, hsolving⟩
    · rintro ⟨x, hx, hsolving⟩
      rcases hs.read hx with ⟨rfl, _, rfl⟩ | ⟨spec, -, -, hchild, -⟩ | ⟨hmn, -, hm⟩
      · cases hsolving
      · rw [hchild.status] at hsolving
        cases hsolving
      · exact ⟨hmn, x, hm, hsolving⟩

theorem Keeps.start (selection : NodeSelection) (bound : K) :
    ∃ l t, Returns (Ledger.start bound) (SearchTree.new selection) l t ∧ t.Wf (fun _ => False) ∧ l.Keeps t := by
  obtain ⟨t, hret, hwf, hnextId, hreleased, hread⟩ := SearchTree.createRoot_spec selection bound
  have hroot : ∀ {n node}, t.node? n = some node → n = 0 ∧ node = Node.root 0 bound := by
    intro n node hn
    rw [hread] at hn
    split at hn
    · next hzero => exact ⟨hzero.symm, (Option.some.inj hn).symm⟩
    · cases hn
  have hnone : releases { created := [(0, none)] } t = [] := by
    unfold releases
    rw [hreleased]
    rfl
  refine ⟨{ created := [(0, none)] }, t, hret.andThen rfl, hwf, hnextId ▸ rfl, fun hn => ?_, fun n => ?_, ?_,
    fun _ hp => ?_, fun n => ?_, List.nodup_nil⟩
  · obtain ⟨rfl, rfl⟩ := hroot hn
    exact List.mem_cons_self
  · rw [hnone, hnextId, hread]
    refine ⟨fun hn => (List.not_mem_nil hn).elim, fun ⟨hlt, hn⟩ => ?_⟩
    rw [if_pos (Nat.lt_one_iff.mp hlt).symm] at hn
    cases hn
  · rw [hnone]
    exact List.nodup_nil
  · rw [hnone] at hp
    cases hp
  · refine ⟨fun hn => (List.not_mem_nil hn).elim, fun ⟨node, hn, hs⟩ => ?_⟩
    obtain ⟨-, rfl⟩ := hroot hn
    cases hs

/-- **One call** that the ledger allows returns, and the ledger stays true. -/
theorem Keeps.step [IsTrans K (· < ·)] (h : l.Keeps t) (ht : t.Wf fun _ => False) {op : TreeOp K}
    (hallows : l.Allows op) :
    ∃ l' u, Returns (l.step op) t l' u ∧ u.Wf (fun _ => False) ∧ l'.Keeps u := by
  have hbusy : ∀ n ∈ l.busy, ∃ node, t.node? n = some node ∧ node.status = .solving := fun n hn =>
    (h.busy n).mp hn
  have hsame : ∀ {n : NodeId} {status : NodeStatus}, n ∈ l.busy → status = .solving →
      (n ∈ l.busy ↔ status = .solving) := fun hn hs => ⟨fun _ => hs, fun _ => hn⟩
  cases op with
  | popNext prunable =>
    obtain ⟨next, u, hret, hu, v, hcloses, htakes⟩ := SearchTree.popNext_spec ht prunable
    have hv : l.Keeps v := h.closes_others hcloses fun n ⟨node, hn, hopen, _⟩ => ⟨node, hn, hopen⟩
    cases next with
    | none =>
      obtain ⟨rfl, -⟩ := htakes
      exact ⟨l, u, hret.andThen rfl, hu, hv⟩
    | some n =>
      obtain ⟨node, hn, hid, hopen, -, rfl⟩ := htakes
      have hnot : n ∉ l.busy := fun hmem => by
        obtain ⟨x, hx, hsolving⟩ := (hv.busy n).mp hmem
        obtain rfl := Option.some.inj (hn.symm.trans hx)
        rw [hopen] at hsolving
        cases hsolving
      refine ⟨_, _, hret.andThen rfl, hu, hv.setNode hn { node with status := .solving } hid rfl
        v.unresolved ⟨fun _ => rfl, fun _ => List.mem_cons_self⟩ (fun m hm => ?_)
        (List.nodup_cons.mpr ⟨hnot, hv.busyOnce⟩)⟩
      rw [List.mem_cons, or_iff_right hm]
  | pushChildren n d objective basis =>
    obtain ⟨hmem, hmany⟩ := hallows
    obtain ⟨node, hn, hsolving⟩ := hbusy n hmem
    obtain ⟨u, hret, hs, hqueue⟩ := SearchTree.pushChildren_spec ht hn hmany objective basis
    exact ⟨_, u, hret.andThen rfl, hs.wf ht hn hmany hsolving hqueue, h.splits ht hs hn⟩
  | prune n reason =>
    obtain ⟨node, hn, hsolving⟩ := hbusy n hallows
    have hmember : n ∉ t.queue.members := fun hm => by
      obtain ⟨x, hx, hopen⟩ := ht.isOpen hm
      obtain rfl := Option.some.inj (hn.symm.trans hx)
      rw [hopen] at hsolving
      cases hsolving
    obtain ⟨u, hret, hu, hcloses, -, hdead⟩ := SearchTree.close_spec ht hn (.inr hsolving) hmember reason
    refine ⟨_, u, hret.andThen rfl, hu.mono fun _ _ _ hout => hout.1, h.closes hcloses (fun m _ hm => hm ▸ hdead)
      (fun m => ?_) (h.busyOnce.erase n)⟩
    rw [h.busyOnce.mem_erase_iff, and_comm]
  | markUnresolved n =>
    obtain ⟨node, hn, hsolving⟩ := hbusy n hallows
    have hid := ht.id hn
    obtain ⟨hret, hu⟩ := SearchTree.markUnresolved_spec ht hn hsolving
    refine ⟨_, _, hret.andThen rfl, hu, h.setNode hn { node with status := .unresolved } hid rfl _
      ⟨fun hm => ?_, nofun⟩ (fun m hm => ?_) (h.busyOnce.erase n)⟩
    · exact ((h.busyOnce.mem_erase_iff.mp hm).1 rfl).elim
    · rw [h.busyOnce.mem_erase_iff, and_iff_right hm]
  | raiseBound n bound =>
    obtain ⟨node, hn, hsolving⟩ := hbusy n hallows
    refine ⟨l, _, rfl, ht.raiseBound hn hsolving bound, ?_⟩
    show l.Keeps (t.modifyNode n (·.raiseBound bound))
    rw [SearchTree.modifyNode_eq hn]
    obtain ⟨hid, hparent, -, hstatus, -⟩ := node.raiseBound_place bound
    exact h.setNode hn (node.raiseBound bound) (hid.trans (ht.id hn)) hparent t.unresolved
      (hsame hallows (hstatus.trans hsolving)) (fun _ _ => Iff.rfl) h.busyOnce
  | recordChanges n changes =>
    obtain ⟨node, hn, hsolving⟩ := hbusy n hallows
    have hid := ht.id hn
    obtain ⟨hret, hu⟩ := SearchTree.recordChanges_spec ht hn hsolving changes
    exact ⟨l, _, hret.andThen rfl, hu, h.setNode hn { node with changes := node.changes ++ changes }
      hid rfl t.unresolved (hsame hallows hsolving) (fun _ _ => Iff.rfl) h.busyOnce⟩
  | pruneDominated prunable =>
    obtain ⟨count, u, hret, hu, hcloses⟩ := SearchTree.pruneDominated_spec ht prunable
    exact ⟨l, u, hret.andThen rfl, hu, h.closes_others hcloses fun n ⟨node, hn, hopen, _⟩ => ⟨node, hn, hopen⟩⟩
  | abandonOpen =>
    obtain ⟨u, hret, hu, hcloses⟩ := SearchTree.abandonOpen_spec ht
    exact ⟨l, u, hret.andThen rfl, hu, h.closes_others hcloses fun _ hn => hn⟩
  | setHasIncumbent has =>
    have hu : (t.setHasIncumbent has).Wf fun _ => False := { ht with queue := { ht.queue with } }
    exact ⟨l, t.setHasIncumbent has, rfl, hu,
      h.closes_others (.of_eq rfl rfl rfl rfl) fun _ => False.elim⟩
  | lowestBound =>
    obtain ⟨hmembers, hqueue⟩ := Queue.bestBound_spec ht.queue
    have hu : t.lowestBound.2.Wf fun _ => False :=
      ht.withQueue hqueue (fun hm => hmembers ▸ hm) (fun he _ => by rw [hmembers]; exact he) fun _ => id
    refine ⟨l, t.lowestBound.2, rfl, hu, h.closes_others (.of_eq rfl rfl rfl rfl)
      fun _ => False.elim⟩
  | drainReleased =>
    refine ⟨_, t.drainReleased.2, rfl, { ht with }, h.created, h.parent, ?_, ?_, ?_, h.busy, h.busyOnce⟩
    all_goals rw [show releases _ t.drainReleased.2 = l.releases t from List.append_nil _]
    · exact h.released
    · exact h.once
    · exact h.order

/-- **A run** keeps the tree in order and the ledger true. -/
theorem Reached.keeps [IsTrans K (· < ·)] {selection : NodeSelection} {bound : K}
    (h : Reached selection bound t l) : t.Wf (fun _ => False) ∧ l.Keeps t := by
  induction h with
  | start h =>
    obtain ⟨l', u, hret, hu, hkeeps⟩ := Keeps.start selection bound
    obtain ⟨rfl, rfl⟩ := hret.unique h
    exact ⟨hu, hkeeps⟩
  | step _ hallows hop ih =>
    obtain ⟨l', u, hret, hu, hkeeps⟩ := ih.2.step ih.1 hallows
    obtain ⟨rfl, rfl⟩ := hret.unique hop
    exact ⟨hu, hkeeps⟩

/-! ## Where the nodes are -/

/-- The status of a node that is in the tree. -/
def Fate.status : Fate → Option NodeStatus
  | .waiting => some .open
  | .busy => some .solving
  | .split => some .branched
  | .unresolved => some .unresolved
  | .released => none

/-- The status of a node says where it is. -/
theorem Keeps.has_iff (h : l.Keeps t) (ht : t.Wf fun _ => False) (hlt : n < t.nextId) (f : Fate) :
    l.Has t n f ↔ (t.node? n).map Node.status = Fate.status f := by
  cases f with
  | waiting =>
    refine Iff.trans ⟨ht.isOpen, fun ⟨x, hx, hs⟩ => ?_⟩ Option.map_eq_some_iff.symm
    obtain ⟨e, he, -⟩ := ht.queued hx hs not_false
    exact Std.TreeMap.mem_iff_isSome_getElem?.mpr (by rw [he]; rfl)
  | busy => exact (h.busy n).trans Option.map_eq_some_iff.symm
  | split =>
    refine Iff.trans ⟨fun ⟨x, hx, hs, _⟩ => ⟨x, hx, hs⟩, fun ⟨x, hx, hs⟩ => ?_⟩ Option.map_eq_some_iff.symm
    exact ⟨x, hx, hs, (ht.closed hx (by rw [hs]; rfl) not_false).2⟩
  | unresolved => exact ht.listed.trans Option.map_eq_some_iff.symm
  | released => exact (h.released n).trans ((and_iff_right hlt).trans Option.map_eq_none_iff.symm)

theorem Keeps.fate (h : l.Keeps t) (ht : t.Wf fun _ => False) (hlt : n < t.nextId) :
    ∃! f, l.Has t n f := by
  have hone : ∀ f, (t.node? n).map Node.status = Fate.status f → ∃! f, l.Has t n f := by
    intro f hf
    refine ⟨f, (h.has_iff ht hlt f).mpr hf, fun g hg => ?_⟩
    have hsame : Fate.status g = Fate.status f := ((h.has_iff ht hlt g).mp hg).symm.trans hf
    revert hsame
    cases g <;> cases f <;> simp [Fate.status]
  cases hn : t.node? n with
  | none => exact hone .released (by rw [hn]; rfl)
  | some node =>
    have hsome : (t.node? n).map Node.status = some node.status := by rw [hn]; rfl
    cases hs : node.status with
    | «open» => exact hone .waiting (hsome.trans (congrArg some hs))
    | solving => exact hone .busy (hsome.trans (congrArg some hs))
    | branched => exact hone .split (hsome.trans (congrArg some hs))
    | unresolved => exact hone .unresolved (hsome.trans (congrArg some hs))
    | pruned reason =>
      obtain ⟨hbranched, -⟩ := ht.closed hn (by rw [hs]; rfl) not_false
      rw [hs] at hbranched
      cases hbranched

/-- The tree counts the children that the ledger has. -/
theorem Keeps.card_children (h : l.Keeps t) (ht : t.Wf fun _ => False) :
    (t.children n).card = (l.liveChildren t n).length := by
  have hsub : ((l.liveChildren t n).map Prod.fst).Nodup := by
    refine List.Nodup.sublist (List.filter_sublist.map _) ?_
    rw [h.created]
    exact List.nodup_range
  rw [← List.length_map Prod.fst, ← List.toFinset_card_of_nodup hsub]
  refine congrArg Finset.card (Finset.ext fun c => ?_)
  rw [List.mem_toFinset, List.mem_map, SearchTree.mem_children]
  unfold liveChildren
  constructor
  · rintro ⟨-, x, hx, hparent⟩
    refine ⟨(c, some n), List.mem_filter.mpr ⟨hparent ▸ h.parent hx, ?_⟩, rfl⟩
    simp [hx]
  · rintro ⟨⟨c', p⟩, hmem, rfl⟩
    obtain ⟨hcreated, hcond⟩ := List.mem_filter.mp hmem
    rw [Bool.and_eq_true, decide_eq_true_iff] at hcond
    obtain ⟨hp, halive⟩ := hcond
    obtain ⟨x, hx⟩ := Option.isSome_iff_exists.mp halive
    exact ⟨ht.fresh hx, x, hx, h.parent_eq hx (hp ▸ hcreated)⟩

/-- A tree in which nothing is to be done is empty: the last of its nodes would have children. -/
theorem Keeps.done (h : l.Keeps t) (ht : t.Wf fun _ => False) (hopen : t.numOpen = 0)
    (hbusy : l.busy = []) (hunresolved : t.numUnresolved = 0) : t.numNodes = 0 := by
  have hmembers : t.queue.members.isEmpty = true := by
    rw [Std.TreeMap.isEmpty_eq_size_eq_zero]
    exact beq_iff_eq.mpr hopen
  have hnone : ∀ k n : Nat, t.nextId - n ≤ k → t.node? n = none := by
    intro k
    induction k with
    | zero =>
      intro n hk
      refine Option.eq_none_iff_forall_ne_some.mpr fun x hx => ?_
      exact absurd (ht.fresh hx) (Nat.not_lt_of_le (Nat.le_of_sub_eq_zero (Nat.le_zero.mp hk)))
    | succ k ih =>
      intro n hk
      refine Option.eq_none_iff_forall_ne_some.mpr fun x hx => ?_
      obtain ⟨f, hf, -⟩ := h.fate ht (ht.fresh hx)
      cases f with
      | waiting => exact Std.TreeMap.isEmpty_iff_forall_not_mem.mp hmembers n hf
      | busy =>
        rw [Has, hbusy] at hf
        cases hf
      | split =>
        obtain ⟨y, hy, -, hlive⟩ := hf
        rw [ht.count hy] at hlive
        obtain ⟨c, hc⟩ := Finset.card_pos.mp hlive
        obtain ⟨-, z, hz, hparent⟩ := SearchTree.mem_children.mp hc
        obtain ⟨-, -, -, hnc, -⟩ := ht.parent hz hparent
        have hless : t.nextId - c < t.nextId - n := Nat.sub_lt_sub_left (ht.fresh hx) hnc
        rw [ih c (Nat.le_of_lt_succ (Nat.lt_of_lt_of_le hless hk))] at hz
        cases hz
      | unresolved =>
        rw [Has, List.length_eq_zero_iff.mp hunresolved] at hf
        cases hf
      | released =>
        rw [((h.released n).mp hf).2] at hx
        cases hx
  have hempty : t.nodes.isEmpty = true := by
    refine Std.TreeMap.isEmpty_iff_forall_not_mem.mpr fun n hn => ?_
    have hdead : t.nodes[n]? = none := hnone _ n (Nat.le_refl _)
    rw [Std.TreeMap.mem_iff_isSome_getElem?, hdead] at hn
    cases hn
  exact beq_iff_eq.mp (Std.TreeMap.isEmpty_eq_size_eq_zero ▸ hempty)

theorem Keeps.accounts (h : l.Keeps t) (ht : t.Wf fun _ => False) : l.Accounts t := by
  have hstatus : ∀ {n node}, t.node? n = some node → ∀ {s f}, Fate.status f = some s →
      (node.status = s ↔ l.Has t n f) := by
    intro n node hn s f hf
    rw [h.has_iff ht (ht.fresh hn), hn, hf]
    exact Option.some_inj.symm
  refine ⟨fun c hc => h.fate ht (h.mem_created.mp (List.mem_map_of_mem hc)), fun n => ?_,
    fun hn => ⟨hstatus hn rfl, hstatus hn rfl, hstatus hn rfl, hstatus hn rfl⟩,
    fun hn => (ht.count hn).trans (h.card_children ht), fun hn => SearchTree.pathTo_leads ht hn, h.once, h.order,
    fun {n p node} hn hp => ?_, h.done ht⟩
  · rw [h.mem_created, h.released]
    constructor
    · rintro ⟨node, hn⟩
      refine ⟨ht.fresh hn, fun hgone => ?_⟩
      rw [hgone.2] at hn
      cases hn
    · rintro ⟨hlt, hnot⟩
      exact Option.ne_none_iff_exists'.mp fun hnone => hnot ⟨hlt, hnone⟩
  · obtain ⟨parent, hq, -, -, -, hraised⟩ := ht.parent hn (h.parent_eq hn hp)
    exact ⟨parent, hq, hraised⟩

/-- **No node is lost.** The root can be created, and from then on every call that the
ledger allows returns, and every node that was ever created is accounted for. -/
theorem accounts_of_reached [IsTrans K (· < ·)] (selection : NodeSelection) (bound : K) :
    (∃ t l, Returns (start bound) (SearchTree.new selection) l t) ∧
      ∀ t l, Reached selection bound t l → l.Accounts t ∧
        ∀ op, l.Allows op → ∃ l' u, Returns (l.step op) t l' u := by
  refine ⟨?_, fun t l h => ?_⟩
  · obtain ⟨l, t, hret, -⟩ := Keeps.start selection bound
    exact ⟨t, l, hret⟩
  · obtain ⟨ht, hkeeps⟩ := h.keeps
    refine ⟨hkeeps.accounts ht, fun op hallows => ?_⟩
    obtain ⟨l', u, hret, -⟩ := hkeeps.step ht hallows
    exact ⟨l', u, hret⟩

/-- A split in two. -/
def halves : BranchingDecision Float where
  children := [{ changes := [], estimate := 0 }, { changes := [], estimate := 0 }]

/-- Calls on a new tree, one after the other. -/
def calls : List (TreeOp Float) → TreeM Float Ledger
  | [] => start 0
  | op :: before => do
    let l ← calls before
    l.step op

/-- The nodes that are taken after some calls. -/
def busyAfter (ops : List (TreeOp Float)) : List NodeId :=
  match calls ops (SearchTree.new .bestBound) with
  | .ok l _ => l.busy
  | .error _ _ => []

/-- The root is split, and one of its children is taken. -/
theorem accounts_of_reached_split :
    ∃ t l, Reached .bestBound (0 : Float) t l ∧ l.busy = [1] ∧ l.Accounts t := by
  have hbusy : ∀ {ops l t}, Returns (calls ops) (SearchTree.new .bestBound) l t →
      l.busy = busyAfter ops := fun hret => by
    unfold Returns at hret
    rw [busyAfter, hret]
  let pop : TreeOp Float := .popNext fun _ => false
  let push : TreeOp Float := .pushChildren 0 halves 0 none
  obtain ⟨⟨t, l, hstart⟩, hall⟩ := accounts_of_reached .bestBound (0 : Float)
  have hroot := Reached.start hstart
  obtain ⟨l₁, t₁, hpop⟩ := (hall t l hroot).2 pop trivial
  have hreturns : Returns (calls [pop]) _ l₁ t₁ := hstart.andThen hpop
  have htaken : Reached _ _ t₁ l₁ := .step hroot (show l.Allows pop from trivial) hpop
  have hroot : 0 ∈ l₁.busy := by
    rw [hbusy hreturns]
    decide +kernel
  obtain ⟨l₂, t₂, hpush⟩ := (hall t₁ l₁ htaken).2 push ⟨hroot, by decide⟩
  have hreturns : Returns (calls [push, pop]) _ l₂ t₂ := hreturns.andThen hpush
  have hsplit : Reached _ _ t₂ l₂ := .step htaken (show l₁.Allows push from ⟨hroot, by decide⟩) hpush
  obtain ⟨l₃, t₃, hnext⟩ := (hall t₂ l₂ hsplit).2 pop trivial
  have hreturns : Returns (calls [pop, push, pop]) _ l₃ t₃ := hreturns.andThen hnext
  have hchild : Reached _ _ t₃ l₃ := .step hsplit (show l₂.Allows pop from trivial) hnext
  refine ⟨t₃, l₃, hchild, ?_, (hall t₃ l₃ hchild).1⟩
  rw [hbusy hreturns]
  decide +kernel

end Ledger

end BranchAndCut

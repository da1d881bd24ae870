import BranchAndCut.Proofs.Tree.Closing

/-! # Splitting a node

The children of a split node take consecutive numbers that no node has had. The
node is closed and counts its children, which are open and inherit its bound. -/

namespace BranchAndCut.SearchTree

section Trees

variable {K : Type} [Scalar K] {t u : SearchTree K} {n : NodeId} {node : Node K}
  {out : NodeId → Prop} {d : BranchingDecision K}

theorem childOf_id (parent : Node K) (d : BranchingDecision K) (objective : K) (id : NodeId)
    (spec : ChildSpec K) : (childOf parent d objective id spec).id = id := by
  unfold childOf
  split <;> rfl

/-- What the children of a node have in common. -/
structure IsChild (above : Node K) (spec : ChildSpec K) (x : Node K) : Prop where
  parent : x.parent = some above.id
  depth : x.depth = above.depth + 1
  changes : x.changes = spec.changes
  bound : x.dualBound = above.dualBound
  status : x.status = .open
  live : x.liveChildren = 0

theorem childOf_isChild (parent : Node K) (d : BranchingDecision K) (objective : K) (id : NodeId)
    (spec : ChildSpec K) : IsChild parent spec (childOf parent d objective id spec) := by
  unfold childOf
  split <;> exact ⟨rfl, rfl, rfl, rfl, rfl, rfl⟩

/-- Children are numbered in turn. -/
theorem map_id_childOf (parent : Node K) (d : BranchingDecision K) (objective : K) (first : Nat) :
    (d.children.zipIdx.map fun (spec, k) => childOf parent d objective (first + k) spec).map Node.id =
      List.range' first d.children.length := by
  calc _ = d.children.zipIdx.map (fun x => first + x.2) := by
        rw [List.map_map]
        exact List.map_congr_left fun x _ => childOf_id _ _ _ _ _
    _ = (d.children.zipIdx.map Prod.snd).map (first + ·) := by rw [List.map_map]; rfl
    _ = _ := by rw [List.zipIdx_map_snd, List.map_add_range', Nat.add_zero]

/-- The numbers from `first` on, one for each member of a list. -/
def numbered {α : Type} (first : Nat) (xs : List α) (n : Nat) (x : α) : Prop :=
  first ≤ n ∧ xs[n - first]? = some x

/-- The tree after children with consecutive numbers were added. -/
theorem foldl_addChild_spec (build : NodeId → ChildSpec K → Node K)
    (hbuild : ∀ id spec, (build id spec).id = id) (specs : List (ChildSpec K)) (first k : Nat)
    (t : SearchTree K) (hqueue : t.queue.Wf) :
    let u := ((specs.zipIdx k).map fun (spec, k) => build (first + k) spec).foldl addChild t
    (∀ n : Nat, (∀ spec, numbered (first + k) specs n spec → u.node? n = some (build n spec) ∧
        ∃ e, u.queue.members[n]? = some e ∧ e.bound = (build n spec).dualBound) ∧
      ((∀ spec, ¬ numbered (first + k) specs n spec) →
        u.node? n = t.node? n ∧ u.queue.members[n]? = t.queue.members[n]?)) ∧
    u.nextId = t.nextId ∧ u.unresolved = t.unresolved ∧ u.released = t.released ∧ u.queue.Wf := by
  induction specs generalizing k t with
  | nil =>
    refine ⟨fun n => ⟨fun spec hspec => ?_, fun _ => ⟨rfl, rfl⟩⟩, rfl, rfl, rfl, hqueue⟩
    simp [numbered] at hspec
  | cons spec specs ih =>
    have hid := hbuild (first + k) spec
    obtain ⟨hread, hnextId, hunresolved, hreleased, hwf⟩ := ih (k + 1) (addChild t (build (first + k) spec))
      (Queue.push_wf hqueue _ _ _ _)
    dsimp only at hread hnextId hunresolved hreleased hwf ⊢
    rw [List.zipIdx_cons, List.map_cons, List.foldl_cons]
    refine ⟨fun n => ?_, hnextId, hunresolved, hreleased, hwf⟩
    obtain ⟨hnew, hold⟩ := hread n
    have hnode : (addChild t (build (first + k) spec)).node? n =
        if first + k = n then some (build (first + k) spec) else t.node? n := by
      have hset := node?_setNode t (build (first + k) spec) n
      rw [hid] at hset
      exact hset
    have hmember : (addChild t (build (first + k) spec)).queue.members[n]? =
        if first + k = n then some ⟨(build (first + k) spec).dualBound,
          (build (first + k) spec).estimate, (build (first + k) spec).depth⟩
        else t.queue.members[n]? := by
      show (t.queue.members.insert (build (first + k) spec).id _)[n]? = _
      rw [Std.TreeMap.getElem?_insert, hid]
      simp only [Nat.compare_eq_eq]
    by_cases hn : first + k = n
    · subst hn
      have hnot : ∀ spec', ¬ numbered (first + (k + 1)) specs (first + k) spec' :=
        fun spec' hspec' => by
          have hle := hspec'.1
          omega
      obtain ⟨hnode', hmember'⟩ := hold hnot
      rw [hnode', hmember', hnode, hmember, if_pos rfl, if_pos rfl]
      refine ⟨fun spec' hspec' => ?_, fun hall => ?_⟩
      · obtain ⟨-, hget⟩ := hspec'
        rw [Nat.sub_self] at hget
        obtain rfl := Option.some.inj hget
        exact ⟨rfl, _, rfl, rfl⟩
      · exact (hall spec ⟨Nat.le_refl _, by simp⟩).elim
    · rw [if_neg hn] at hnode hmember
      have hiff : ∀ spec', numbered (first + k) (spec :: specs) n spec' ↔
          numbered (first + (k + 1)) specs n spec' := by
        intro spec'
        unfold numbered
        constructor
        · rintro ⟨hle, hget⟩
          have hsub : n - (first + k) = n - (first + (k + 1)) + 1 := by omega
          rw [hsub, List.getElem?_cons_succ] at hget
          exact ⟨by omega, hget⟩
        · rintro ⟨hle, hget⟩
          have hsub : n - (first + k) = n - (first + (k + 1)) + 1 := by omega
          refine ⟨by omega, ?_⟩
          rw [hsub, List.getElem?_cons_succ]
          exact hget
      simp only [hiff]
      rw [← hnode, ← hmember]
      exact ⟨hnew, hold⟩

/-- The tree after a node was split into children with consecutive numbers. -/
structure Splits (t u : SearchTree K) (n : NodeId) (node : Node K) (d : BranchingDecision K) :
    Prop where
  nextId : u.nextId = t.nextId + d.children.length
  unresolved : u.unresolved = t.unresolved
  released : u.released = t.released
  /-- The node itself is closed and counts its children. -/
  parent : ∃ basis, u.node? n = some { node with
    status := .branched, liveChildren := d.children.length, basis }
  /-- The children are open and in the queue. -/
  child : ∀ {m spec}, numbered t.nextId d.children m spec → ∃ x, u.node? m = some x ∧ x.id = m ∧
    IsChild node spec x ∧ ∃ e, u.queue.members[m]? = some e ∧ e.bound = x.dualBound
  other : ∀ {m}, m ≠ n → (∀ spec, ¬ numbered t.nextId d.children m spec) →
    u.node? m = t.node? m
  queued : ∀ {m}, (∀ spec, ¬ numbered t.nextId d.children m spec) →
    u.queue.members[m]? = t.queue.members[m]?

theorem numbered.lt {α : Type} {first : Nat} {xs : List α} {n : Nat} {x : α}
    (h : numbered first xs n x) : n < first + xs.length := by
  have hlt := (List.getElem?_eq_some_iff.mp h.2).1
  have hle := h.1
  omega

/-- A number is that of a child, or not. -/
theorem numbered_cases {α : Type} (first : Nat) (xs : List α) (n : Nat) :
    (∃ x, numbered first xs n x ∧ first ≤ n ∧ n < first + xs.length) ∨
      ((∀ x, ¬ numbered first xs n x) ∧ ¬ (first ≤ n ∧ n < first + xs.length)) := by
  by_cases h : first ≤ n ∧ n < first + xs.length
  · have hlt : n - first < xs.length := by omega
    exact .inl ⟨xs[n - first], ⟨h.1, List.getElem?_eq_getElem hlt⟩, h⟩
  · exact .inr ⟨fun x hx => h ⟨hx.1, hx.lt⟩, h⟩

/-- What `pushChildren` does at a node of the tree. -/
theorem pushChildren_at (hn : t.node? n = some node) (hmany : 2 ≤ d.children.length) (objective : K)
    (basis : Option SavedBasis) :
    let children := d.children.zipIdx.map fun (spec, k) => childOf node d objective (t.nextId + k) spec
    let v := children.foldl addChild { t with nextId := t.nextId + d.children.length }
    let w := v.modifyNode n fun x => { x with
      status := .branched, liveChildren := d.children.length, basis }
    Returns (pushChildren n d objective basis) t (children.map Node.id)
      { w with queue := w.queue.setLastChildren (children.map Node.id) } := by
  have hread : node? { t with nextId := t.nextId + d.children.length } n = some node := hn
  unfold pushChildren
  rw [if_neg (Nat.not_lt_of_le hmany)]
  refine .andThen rfl (.andThen rfl (.andThen rfl ?_))
  dsimp only
  rw [hread]
  rfl

/-- **Splitting a node** into two or more children gives them the next numbers. -/
theorem pushChildren_spec (h : t.Wf out) (hn : t.node? n = some node) (hmany : 2 ≤ d.children.length)
    (objective : K) (basis : Option SavedBasis) :
    ∃ u, Returns (pushChildren n d objective basis) t (List.range' t.nextId d.children.length) u ∧
      Splits t u n node d ∧ u.queue.Wf := by
  have hid := h.id hn
  have hfresh := h.fresh hn
  have hret := pushChildren_at hn hmany objective basis
  obtain ⟨hspec, hnextId, hunresolved, hreleased, hqueue⟩ := foldl_addChild_spec (childOf node d objective)
    (childOf_id node d objective) d.children t.nextId 0
    { t with nextId := t.nextId + d.children.length } h.queue
  dsimp only [Nat.add_zero] at hret hspec hnextId hunresolved hreleased hqueue
  rw [map_id_childOf] at hret
  refine ⟨_, hret, ?_⟩
  generalize hv : List.foldl addChild { t with nextId := t.nextId + d.children.length }
    (d.children.zipIdx.map fun x => childOf node d objective (t.nextId + x.2) x.1) = v
    at hspec hnextId hunresolved hreleased hqueue ⊢
  have hnotn : ∀ spec, ¬ numbered t.nextId d.children n spec := fun spec hspec =>
    Nat.not_le_of_lt hfresh hspec.1
  have hvn : v.node? n = some node := ((hspec n).2 hnotn).1.trans hn
  rw [modifyNode_eq hvn]
  have hnode : ∀ m, (v.setNode { node with
      status := .branched, liveChildren := d.children.length, basis }).node? m =
      if n = m then some { node with
        status := .branched, liveChildren := d.children.length, basis } else v.node? m := by
    intro m
    rw [node?_setNode, ← hid]
  refine ⟨⟨hnextId, hunresolved, hreleased, ⟨basis, ?_⟩, fun {m spec} hm => ?_, fun {m} hne hm => ?_,
    fun hm => ((hspec _).2 hm).2⟩, hqueue.byBound, hqueue.byDepth, hqueue.byEstimate⟩
  · exact (hnode n).trans (if_pos rfl)
  · obtain ⟨hchild, hqueued⟩ := (hspec m).1 spec hm
    refine ⟨_, ?_, childOf_id node d objective m spec, childOf_isChild node d objective m spec, hqueued⟩
    refine (hnode m).trans ((if_neg ?_).trans hchild)
    rintro rfl
    exact hnotn spec hm
  · exact (hnode m).trans ((if_neg fun heq => hne heq.symm).trans ((hspec m).2 hm).1)

/-! ## The tree after a split -/

section Splits

variable (hs : Splits t u n node d) (h : t.Wf fun _ => False) (hn : t.node? n = some node)

include hs

omit [Scalar K] in
/-- A node of the tree is the one that was split, one of its children, or was there before. -/
theorem Splits.read {m : NodeId} {x : Node K} (hm : u.node? m = some x) :
    (m = n ∧ ∃ basis, x = { node with status := .branched, liveChildren := d.children.length, basis }) ∨
      (∃ spec, numbered t.nextId d.children m spec ∧ x.id = m ∧ IsChild node spec x ∧
        ∃ e, u.queue.members[m]? = some e ∧ e.bound = x.dualBound) ∨
      (m ≠ n ∧ (∀ spec, ¬ numbered t.nextId d.children m spec) ∧ t.node? m = some x) := by
  by_cases hmn : m = n
  · subst hmn
    obtain ⟨basis, hx⟩ := hs.parent
    exact .inl ⟨rfl, basis, Option.some.inj (hm.symm.trans hx)⟩
  · rcases numbered_cases t.nextId d.children m with ⟨spec, hspec, -⟩ | ⟨hnot, -⟩
    · obtain ⟨x', hx, hrest⟩ := hs.child hspec
      obtain rfl := Option.some.inj (hm.symm.trans hx)
      exact .inr (.inl ⟨spec, hspec, hrest⟩)
    · exact .inr (.inr ⟨hmn, hnot, hs.other hmn hnot ▸ hm⟩)

include h

theorem Splits.kept {m : NodeId} {x : Node K} (hm : t.node? m = some x) (hmn : m ≠ n) :
    u.node? m = some x := by
  rw [hs.other hmn fun spec hspec => Nat.not_le_of_lt (h.fresh hm) hspec.1, hm]

include hn

theorem Splits.children (hempty : t.children n = ∅) (q : NodeId) :
    u.children q = if q = n then Finset.Ico t.nextId (t.nextId + d.children.length)
      else t.children q := by
  have hid := h.id hn
  ext c
  rw [mem_children, hs.nextId]
  constructor
  · rintro ⟨-, x, hc, hparent⟩
    rcases hs.read hc with ⟨rfl, basis, rfl⟩ | ⟨spec, hspec, -, hx, -⟩ | ⟨-, -, hc⟩
    · have hmem : c ∈ t.children q := mem_children.mpr ⟨h.fresh hn, node, hn, hparent⟩
      rw [if_neg]
      · exact hmem
      · rintro rfl
        rw [hempty] at hmem
        cases hmem
    · obtain rfl : node.id = q := Option.some.inj (hx.parent.symm.trans hparent)
      rw [if_pos hid]
      exact Finset.mem_Ico.mpr ⟨hspec.1, hspec.lt⟩
    · have hmem : c ∈ t.children q := mem_children.mpr ⟨h.fresh hc, x, hc, hparent⟩
      rw [if_neg]
      · exact hmem
      · rintro rfl
        rw [hempty] at hmem
        cases hmem
  · intro hc
    split at hc
    · next heq =>
      obtain ⟨hle, hlt⟩ := Finset.mem_Ico.mp hc
      rcases numbered_cases t.nextId d.children c with ⟨spec, hspec, -⟩ | ⟨-, hnot⟩
      · obtain ⟨x, hx, -, hchild, -⟩ := hs.child hspec
        exact ⟨hlt, x, hx, by rw [hchild.parent, hid, heq]⟩
      · exact (hnot ⟨hle, hlt⟩).elim
    · next hne =>
      obtain ⟨hlt, x, hx, hparent⟩ := mem_children.mp hc
      refine ⟨Nat.lt_add_right _ hlt, ?_⟩
      by_cases hcn : c = n
      · subst hcn
        obtain rfl := Option.some.inj (hn.symm.trans hx)
        obtain ⟨basis, hsplit⟩ := hs.parent
        exact ⟨_, hsplit, hparent⟩
      · exact ⟨x, hs.kept h hx hcn, hparent⟩

/-- **Splitting a node keeps the tree in order.** -/
theorem Splits.wf (hmany : 2 ≤ d.children.length) (hbusy : node.status = .solving)
    (hqueue : u.queue.Wf) : u.Wf fun _ => False := by
  have hid := h.id hn
  have hfresh := h.fresh hn
  have hempty := h.children_eq_empty hn (by rw [hbusy]; nofun)
  have hchildren := hs.children h hn hempty
  obtain ⟨basis, hsplit⟩ := hs.parent
  -- the parent of an old node, as it stands in the new tree
  have hparent : ∀ {m x q}, t.node? m = some x → x.parent = some q →
      ∃ parent, u.node? q = some parent ∧ parent.status = .branched ∧ q < m ∧
        x.depth = parent.depth + 1 ∧ Raised parent.dualBound x.dualBound := by
    intro m x q hm hq
    obtain ⟨parent, hp, hrest⟩ := h.parent hm hq
    refine ⟨parent, hs.kept h hp ?_, hrest⟩
    rintro rfl
    obtain rfl := Option.some.inj (hn.symm.trans hp)
    rw [hbusy] at hrest
    cases hrest.1
  refine ⟨fun {m x} hm => ?_, fun {m x} hm => ?_, fun {m x q} hm hp => ?_, fun {m x} hm hnone => ?_,
    fun {m x} hm => ?_, fun {m x} hm hc _ => ?_, fun {m x} hm ho _ => ?_, fun {m} hm => ?_, fun {m} => ?_,
    hqueue⟩
  · rcases hs.read hm with ⟨rfl, _, rfl⟩ | ⟨spec, -, hx, -⟩ | ⟨-, -, hm⟩
    · exact hid
    · exact hx
    · exact h.id hm
  · rw [hs.nextId]
    rcases hs.read hm with ⟨rfl, -⟩ | ⟨spec, hspec, -⟩ | ⟨-, -, hm⟩
    · exact Nat.lt_add_right _ hfresh
    · exact hspec.lt
    · exact Nat.lt_add_right _ (h.fresh hm)
  · rcases hs.read hm with ⟨rfl, _, rfl⟩ | ⟨spec, hspec, -, hx, -⟩ | ⟨-, -, hm⟩
    · have habove := hparent hn hp
      exact habove
    · obtain rfl : node.id = q := Option.some.inj (hx.parent.symm.trans hp)
      rw [hid]
      exact ⟨_, hsplit, rfl, Nat.lt_of_lt_of_le hfresh hspec.1, hx.depth, .inl hx.bound.symm⟩
    · exact hparent hm hp
  · rcases hs.read hm with ⟨rfl, _, rfl⟩ | ⟨spec, -, -, hx, -⟩ | ⟨-, -, hm⟩
    · have hroot := h.root hn hnone
      exact hroot
    · rw [hx.parent] at hnone
      cases hnone
    · exact h.root hm hnone
  · rw [hchildren]
    rcases hs.read hm with ⟨rfl, _, rfl⟩ | ⟨spec, hspec, -, hx, -⟩ | ⟨hmn, -, hm⟩
    · rw [if_pos rfl, Nat.card_Ico]
      show d.children.length = _
      omega
    · have hmn : m ≠ n := fun heq => Nat.not_le_of_lt hfresh (heq ▸ hspec.1)
      rw [if_neg hmn, hx.live, eq_comm, Finset.card_eq_zero]
      refine Finset.eq_empty_of_forall_notMem fun c hc => ?_
      obtain ⟨-, y, hy, hp⟩ := mem_children.mp hc
      obtain ⟨parent, hm', -⟩ := h.parent hy hp
      exact Nat.not_le_of_lt (h.fresh hm') hspec.1
    · rw [if_neg hmn]
      exact h.count hm
  · rcases hs.read hm with ⟨rfl, _, rfl⟩ | ⟨spec, -, -, hx, -⟩ | ⟨-, -, hm⟩
    · exact ⟨rfl, Nat.lt_of_lt_of_le Nat.two_pos hmany⟩
    · rw [hx.status] at hc
      cases hc
    · exact h.closed hm hc not_false
  · rcases hs.read hm with ⟨rfl, _, rfl⟩ | ⟨spec, -, -, -, hqueued⟩ | ⟨-, hnot, hm⟩
    · cases ho
    · exact hqueued
    · rw [hs.queued hnot]
      exact h.queued hm ho not_false
  · rcases numbered_cases t.nextId d.children m with ⟨spec, hspec, -⟩ | ⟨hnot, -⟩
    · obtain ⟨x, hx, -, hchild, -⟩ := hs.child hspec
      exact ⟨x, hx, hchild.status⟩
    · rw [Std.TreeMap.mem_iff_isSome_getElem?, hs.queued hnot,
        ← Std.TreeMap.mem_iff_isSome_getElem?] at hm
      obtain ⟨x, hx, hopen⟩ := h.isOpen hm
      refine ⟨x, hs.kept h hx ?_, hopen⟩
      rintro rfl
      obtain rfl := Option.some.inj (hn.symm.trans hx)
      rw [hbusy] at hopen
      cases hopen
  · rw [hs.unresolved, h.listed]
    constructor
    · rintro ⟨x, hx, hl⟩
      refine ⟨x, hs.kept h hx ?_, hl⟩
      rintro rfl
      obtain rfl := Option.some.inj (hn.symm.trans hx)
      rw [hbusy] at hl
      cases hl
    · rintro ⟨x, hx, hl⟩
      rcases hs.read hx with ⟨rfl, _, rfl⟩ | ⟨spec, -, -, hchild, -⟩ | ⟨-, -, hx⟩
      · cases hl
      · rw [hchild.status] at hl
        cases hl
      · exact ⟨x, hx, hl⟩

end Splits

/-! ## The root -/

/-- A tree of one node, which is open. -/
theorem createRoot_spec (selection : NodeSelection) (bound : K) :
    ∃ u, Returns (createRoot bound) (new selection) 0 u ∧ u.Wf (fun _ => False) ∧ u.nextId = 1 ∧
      u.released = [] ∧ ∀ n, u.node? n = if 0 = n then some (Node.root 0 bound) else none := by
  obtain ⟨v, hv⟩ : ∃ v : SearchTree K, v =
      { (new selection : SearchTree K).setNode (Node.root 0 bound) with
        nextId := 1
        queue := (Queue.new selection : Queue K).push 0 bound bound 0 } := ⟨_, rfl⟩
  have hret : Returns (createRoot bound) (new selection) 0 v := by
    rw [hv]
    rfl
  have hread : ∀ n, v.node? n = if 0 = n then some (Node.root 0 bound) else none := by
    intro n
    have hset := node?_setNode (new selection : SearchTree K) (Node.root 0 bound) n
    have hnone : (new selection : SearchTree K).node? n = none := Std.TreeMap.getElem?_emptyc
    rw [hnone] at hset
    rw [hv]
    exact hset
  have hroot : ∀ {n node}, v.node? n = some node → n = 0 ∧ node = Node.root 0 bound := by
    intro n node hn
    rw [hread] at hn
    split at hn
    · next hzero => exact ⟨hzero.symm, (Option.some.inj hn).symm⟩
    · cases hn
  have hmembers : ∀ n : NodeId, v.queue.members[n]? =
      if 0 = n then some ⟨bound, bound, 0⟩ else none := by
    intro n
    rw [hv]
    show ((∅ : Std.TreeMap NodeId (OpenNode K)).insert 0 _)[n]? = _
    rw [Std.TreeMap.getElem?_insert]
    simp only [Nat.compare_eq_eq, Std.TreeMap.getElem?_emptyc]
  have hqueue : v.queue.Wf := by
    rw [hv]
    exact Queue.push_wf (Queue.new_wf selection) _ _ _ _
  refine ⟨v, hret, ⟨fun hn => ?_, fun hn => ?_, fun hn hp => ?_, fun hn _ => ?_, fun {q parent} hq => ?_,
    fun hn hc _ => ?_, fun {n node} hn _ _ => ?_, fun {n} hm => ?_, fun {n} => ?_, hqueue⟩, ?_, ?_, hread⟩
  · obtain ⟨rfl, rfl⟩ := hroot hn
    rfl
  · obtain ⟨rfl, -⟩ := hroot hn
    rw [hv]
    exact Nat.one_pos
  · obtain ⟨-, rfl⟩ := hroot hn
    cases hp
  · obtain ⟨-, rfl⟩ := hroot hn
    rfl
  · obtain ⟨-, rfl⟩ := hroot hq
    rw [eq_comm]
    refine Finset.card_eq_zero.mpr (Finset.eq_empty_of_forall_notMem fun c hc => ?_)
    obtain ⟨-, child, hchild, hparent⟩ := mem_children.mp hc
    obtain ⟨-, rfl⟩ := hroot hchild
    cases hparent
  · obtain ⟨-, rfl⟩ := hroot hn
    cases hc
  · obtain ⟨rfl, rfl⟩ := hroot hn
    exact ⟨_, hmembers 0, rfl⟩
  · rw [Std.TreeMap.mem_iff_isSome_getElem?, hmembers] at hm
    split at hm
    · next hzero => exact ⟨_, by rw [hread, if_pos hzero], rfl⟩
    · cases hm
  · rw [hv]
    refine ⟨fun hm => (List.not_mem_nil hm).elim, fun ⟨node, hn, hl⟩ => ?_⟩
    rw [← hv] at hn
    obtain ⟨-, rfl⟩ := hroot hn
    cases hl
  · rw [hv]
  · rw [hv]
    rfl

end Trees

end BranchAndCut.SearchTree

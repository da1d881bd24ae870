import BranchAndCut.Proofs.Tree.Children

/-! # The paths of a tree

There is one path to each node, and its beginnings are paths too. Closing nodes leaves fewer
paths with the same changes on them; a split adds those to the children. -/

namespace BranchAndCut.SearchTree

variable {K : Type} {t u : SearchTree K} {n : NodeId} {node : Node K} {path : List NodeId}

theorem Leads.mem (h : t.Leads path n) : n ∈ path := by
  cases h with
  | root => exact List.mem_cons_self
  | child => exact List.mem_append_right _ List.mem_cons_self

theorem Leads.alive (h : t.Leads path n) : ∀ m ∈ path, ∃ node, t.node? m = some node := by
  induction h with
  | root hn => exact List.forall_mem_singleton.mpr ⟨_, hn⟩
  | child hn _ _ ih => exact List.forall_mem_append.mpr ⟨ih, List.forall_mem_singleton.mpr ⟨_, hn⟩⟩

theorem Leads.head (h : t.Leads path n) :
    ∃ r rest node, path = r :: rest ∧ t.node? r = some node ∧ node.parent = none := by
  induction h with
  | root hn hparent => exact ⟨_, [], _, rfl, hn, hparent⟩
  | child _ _ _ ih =>
    obtain ⟨r, rest, node, hpath, hr⟩ := ih
    exact ⟨r, _, node, by rw [hpath]; rfl, hr⟩

/-- A path ends at the node it leads to. -/
theorem Leads.ends (h : t.Leads path n) : ∃ above, path = above ++ [n] := by
  cases h with
  | root => exact ⟨[], rfl⟩
  | child => exact ⟨_, rfl⟩

/-- There is one path to each node. -/
theorem Leads.unique (h : t.Leads path n) {path' : List NodeId} (h' : t.Leads path' n) : path' = path := by
  induction h generalizing path' with
  | root hn hparent =>
    cases h' with
    | root => rfl
    | child hn' hparent' =>
      obtain rfl := Option.some.inj (hn.symm.trans hn')
      cases hparent.symm.trans hparent'
  | child hn hparent _ ih =>
    cases h' with
    | root hn' hparent' =>
      obtain rfl := Option.some.inj (hn.symm.trans hn')
      cases hparent.symm.trans hparent'
    | child hn' hparent' hpath' =>
      obtain rfl := Option.some.inj (hn.symm.trans hn')
      obtain rfl := Option.some.inj (hparent.symm.trans hparent')
      rw [ih hpath']

/-- A beginning of a path leads to a node on it. -/
theorem Leads.of_append (h : t.Leads path n) {above below : List NodeId} (hpath : path = above ++ below)
    (hne : above ≠ []) : ∃ m, t.Leads above m := by
  induction h generalizing below with
  | root hn hparent =>
    cases above with
    | nil => exact absurd rfl hne
    | cons a above =>
      simp only [List.cons_append, List.cons.injEq, List.nil_eq, List.append_eq_nil_iff] at hpath
      obtain ⟨rfl, rfl, -⟩ := hpath
      exact ⟨_, .root hn hparent⟩
  | child hn hparent hq ih =>
    rcases List.eq_nil_or_concat below with rfl | ⟨below, m, rfl⟩
    · rw [List.append_nil] at hpath
      rw [← hpath]
      exact ⟨_, .child hn hparent hq⟩
    · rw [List.concat_eq_append, ← List.append_assoc] at hpath
      exact ih (List.append_inj_left' hpath rfl)

/-- Paths through a node without children end there. -/
theorem Leads.eq_of_mem (h : t.Leads path n) {m : NodeId} (hm : m ∈ path)
    (hleaf : ∀ {x node}, t.node? x = some node → node.parent ≠ some m) : n = m := by
  induction h with
  | root => exact (List.mem_singleton.mp hm).symm
  | child hn hparent hq ih =>
    rcases List.mem_append.mp hm with hm | hm
    · exact absurd (ih hm ▸ hparent) (hleaf hn)
    · exact (List.mem_singleton.mp hm).symm

theorem delta_eq (hn : t.node? n = some node) : t.delta n = node.changes := by
  unfold delta
  rw [hn]

/-- A list of nodes is the path to its last one. -/
def IsPath (t : SearchTree K) (ns : List NodeId) : Prop := ∃ n, t.Leads ns n

/-- Where there is only a root, there is only the path to it. -/
theorem IsPath.eq_root (hnodes : ∀ {m x}, t.node? m = some x → m = n ∧ x.parent = none) {ns : List NodeId}
    (h : t.IsPath ns) : ns = [n] := by
  obtain ⟨m, hm⟩ := h
  cases hm with
  | root hm _ => rw [(hnodes hm).1]
  | child hm hparent _ => cases (hnodes hm).2.symm.trans hparent

/-- Nodes that have kept their parents have the paths they had. -/
theorem Leads.of_parents (h : ∀ {n node}, u.node? n = some node → ∃ old, t.node? n = some old ∧ node.parent = old.parent)
    (hp : u.Leads path n) : t.Leads path n := by
  induction hp with
  | root hn hparent =>
    obtain ⟨old, hold, hp⟩ := h hn
    exact .root hold (hp ▸ hparent)
  | child hn hparent _ ih =>
    obtain ⟨old, hold, hp⟩ := h hn
    exact .child hold (hp ▸ hparent) ih

/-- The beginnings of paths are paths. -/
theorem IsPath.of_append {above below : List NodeId} (h : t.IsPath (above ++ below)) (hne : above ≠ []) : t.IsPath above := by
  obtain ⟨n, hn⟩ := h
  exact hn.of_append rfl hne

/-- The nodes of the second tree are nodes of the first, with the same parents and changes. -/
def Thins (t u : SearchTree K) : Prop := ∀ {n node}, u.node? n = some node →
  ∃ old, t.node? n = some old ∧ node.parent = old.parent ∧ node.changes = old.changes

theorem Thins.leads (h : Thins t u) (hp : u.Leads path n) : t.Leads path n ∧ ∀ m ∈ path, u.delta m = t.delta m := by
  refine ⟨hp.of_parents fun hn => ?_, fun m hm => ?_⟩
  · obtain ⟨old, hold, hparent, -⟩ := h hn
    exact ⟨old, hold, hparent⟩
  · obtain ⟨x, hx⟩ := hp.alive m hm
    obtain ⟨old, hold, -, hchanges⟩ := h hx
    rw [delta_eq hx, delta_eq hold, hchanges]

theorem Closes.thins {gone : NodeId → Prop} (h : Closes t u gone) : Thins t u := fun hn => by
  obtain ⟨old, hold, hparent, hchanges, -⟩ := h.nodes hn
  exact ⟨old, hold, hparent, hchanges⟩

theorem Thins.trans {v : SearchTree K} (h : Thins t u) (h' : Thins u v) : Thins t v := fun hn => by
  obtain ⟨mid, hmid, hparent, hchanges⟩ := h' hn
  obtain ⟨old, hold, hparent', hchanges'⟩ := h hmid
  exact ⟨old, hold, hparent.trans hparent', hchanges.trans hchanges'⟩

/-- A node in the same place, with the same changes. -/
theorem thins_setNode (hn : t.node? n = some node) {new : Node K} (hid : new.id = n) (hparent : new.parent = node.parent)
    (hchanges : new.changes = node.changes) : Thins t (t.setNode new) := fun {m x} hm => by
  rw [node?_setNode, hid] at hm
  split at hm
  · next heq =>
    obtain rfl := Option.some.inj hm
    exact ⟨node, heq ▸ hn, hparent, hchanges⟩
  · exact ⟨x, hm, rfl, rfl⟩

theorem Thins.isPath (h : Thins t u) {ns : List NodeId} (hns : u.IsPath ns) :
    t.IsPath ns ∧ ∀ n ∈ ns, u.delta n = t.delta n := by
  obtain ⟨n, hn⟩ := hns
  exact ⟨⟨n, (h.leads hn).1⟩, (h.leads hn).2⟩

/-- No path goes through a node without children but the one to it. -/
theorem Leads.leaf (h : t.Leads path n) (hleaf : ∀ {x node}, t.node? x = some node → node.parent ≠ some n) :
    (∃ above, path = above ++ [n] ∧ n ∉ above) ∧ ∀ ns, t.IsPath ns → n ∈ ns → ns = path := by
  refine ⟨?_, fun ns ⟨m, hm⟩ hmem => ?_⟩
  · cases h with
    | root => exact ⟨[], rfl, List.not_mem_nil⟩
    | child hn hparent hq => exact ⟨_, rfl, fun hmem => hleaf hn (hq.eq_of_mem hmem hleaf ▸ hparent)⟩
  · obtain rfl := hm.eq_of_mem hmem hleaf
    exact h.unique hm

/-- The nodes there were keep their changes. -/
theorem Splits.delta_eq [Scalar K] {d : BranchingDecision K} (hs : Splits t u n node d) (h : t.Wf fun _ => False)
    (hn : t.node? n = some node) {m : NodeId} {x : Node K} (hm : t.node? m = some x) : u.delta m = t.delta m := by
  by_cases hmn : m = n
  · obtain ⟨basis, hsplit⟩ := hs.parent
    rw [hmn, SearchTree.delta_eq hsplit, SearchTree.delta_eq hn]
  · rw [SearchTree.delta_eq (hs.kept h hm hmn), SearchTree.delta_eq hm]

/-- **After a split** there are the paths there were, with the same changes, and one to each child. -/
theorem Splits.isPath [Scalar K] {d : BranchingDecision K} (hs : Splits t u n node d) (h : t.Wf fun _ => False)
    (hn : t.node? n = some node) (hpath : t.Leads path n) {ns : List NodeId} (hns : u.IsPath ns) :
    (t.IsPath ns ∧ ∀ m ∈ ns, u.delta m = t.delta m) ∨
      ∃ m spec, ns = path ++ [m] ∧ numbered t.nextId d.children m spec ∧ u.delta m = spec.changes := by
  have hold : ∀ {m x}, t.node? m = some x → ∀ spec, ¬ numbered t.nextId d.children m spec := fun hm spec hspec =>
    Nat.not_le_of_lt (h.fresh hm) hspec.1
  -- the node that a path of the new tree leads to was there before, or is a child
  have hcases : ∀ {ns m}, u.Leads ns m → t.Leads ns m ∨
      ∃ spec, ns = path ++ [m] ∧ numbered t.nextId d.children m spec ∧ u.delta m = spec.changes := by
    intro ns m hm
    induction hm with
    | root hm hparent =>
      rcases hs.read hm with ⟨rfl, _, rfl⟩ | ⟨spec, -, -, hchild, -⟩ | ⟨-, -, hm⟩
      · exact .inl (.root hn hparent)
      · cases hchild.parent.symm.trans hparent
      · exact .inl (.root hm hparent)
    | @child m q x path' hm hparent hq ih =>
      have hkept : ∀ {y}, t.node? m = some y → y.parent = some q → t.Leads path' q := fun hy hyq => by
        obtain ⟨parent, hp, -⟩ := h.parent hy hyq
        exact ih.resolve_right fun ⟨spec, _, hspec, _⟩ => hold hp spec hspec
      rcases hs.read hm with ⟨rfl, _, rfl⟩ | ⟨spec, hspec, -, hchild, -⟩ | ⟨-, -, hm⟩
      · exact .inl (.child hn hparent (hkept hn hparent))
      · obtain rfl : node.id = q := Option.some.inj (hchild.parent.symm.trans hparent)
        rw [h.id hn] at ih
        have hq := ih.resolve_right fun ⟨spec, _, hspec, _⟩ => hold hn spec hspec
        refine .inr ⟨spec, by rw [hpath.unique hq], hspec, ?_⟩
        rw [SearchTree.delta_eq hm, hchild.changes]
      · exact .inl (.child hm hparent (hkept hm hparent))
  obtain ⟨m, hm⟩ := hns
  rcases hcases hm with hm | ⟨spec, hrest⟩
  · refine .inl ⟨⟨m, hm⟩, fun k hk => ?_⟩
    obtain ⟨x, hx⟩ := hm.alive k hk
    exact hs.delta_eq h hn hx
  · exact .inr ⟨m, spec, hrest⟩

end BranchAndCut.SearchTree

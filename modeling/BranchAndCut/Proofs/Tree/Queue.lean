import Mathlib.Data.List.Nodup
import Mathlib.Data.List.Perm.Basic
import BranchAndCut.Tree.Queue

/-! # The queue loses no open node

A heap holds the keys that were put into it, whatever their order. Each of the
three heaps of the queue holds a key of every open node, next to those of nodes
that have left. So a pick finds an open node as long as there is one. -/

namespace BranchAndCut

variable {K : Type}

/-! ## Heaps -/

namespace Heap

theorem size_eq_length (h : Heap K) : h.size = h.toList.length := by
  induction h with
  | empty => rfl
  | node rank k l r ihl ihr => simp [size, toList, ihl, ihr]

theorem make_perm (k : HeapKey K) (a b : Heap K) :
    (make k a b).toList.Perm (k :: (a.toList ++ b.toList)) := by
  unfold make
  split
  · exact .refl _
  · exact List.perm_append_comm.cons k

variable [Scalar K]

/-- The union holds the keys of both heaps. -/
theorem merge_perm (a b : Heap K) : (merge a b).toList.Perm (a.toList ++ b.toList) := by
  induction a, b using merge.induct with
  | case1 b =>
    rw [merge]
    exact .refl _
  | case2 a ha =>
    cases a with
    | empty => exact (ha rfl).elim
    | node m x l r =>
      rw [merge]
      · simp [toList]
      · exact nofun
  | case3 m x l r n y l' r' hle ih =>
    rw [merge, if_pos hle]
    refine (make_perm x l _).trans (.cons x ?_)
    show (l.toList ++ (merge r (node n y l' r')).toList).Perm
      ((l.toList ++ r.toList) ++ (node n y l' r').toList)
    rw [List.append_assoc]
    exact ih.append_left l.toList
  | case4 m x l r n y l' r' hle ih =>
    rw [merge, if_neg hle]
    refine (make_perm y l' _).trans ?_
    have hrest : (l'.toList ++ (merge (node m x l r) r').toList).Perm
        ((node m x l r).toList ++ (l'.toList ++ r'.toList)) := by
      refine (ih.append_left l'.toList).trans ?_
      rw [← List.append_assoc, ← List.append_assoc]
      exact List.perm_append_comm.append_right r'.toList
    exact (hrest.cons y).trans List.perm_middle.symm

theorem insert_perm (h : Heap K) (k : HeapKey K) : (h.insert k).toList.Perm (k :: h.toList) :=
  merge_perm _ h

theorem pop?_perm {h rest : Heap K} {k : HeapKey K} (hpop : h.pop? = some (k, rest)) :
    h.toList.Perm (k :: rest.toList) := by
  cases h with
  | empty => cases hpop
  | node rank k' l r =>
    cases hpop
    exact (merge_perm l r).symm.cons k

theorem pop?_subperm {h rest : Heap K} {k : HeapKey K} (hpop : h.pop? = some (k, rest)) :
    rest.toList.Subperm h.toList :=
  List.Subperm.cons_self.trans (pop?_perm hpop).symm.subperm

theorem pop?_none {h : Heap K} (hpop : h.pop? = none) : h.toList = [] := by
  cases h with
  | empty => rfl
  | node rank k l r => cases hpop

theorem filter_perm (p : HeapKey K → Bool) (h : Heap K) :
    (h.filter p).toList.Perm (h.toList.filter p) := by
  have hfold : ∀ (ks : List (HeapKey K)) (h : Heap K),
      (ks.foldl insert h).toList.Perm (ks ++ h.toList) := by
    intro ks
    induction ks with
    | nil => exact fun h => .refl _
    | cons k ks ih =>
      intro h
      exact (ih (h.insert k)).trans (((insert_perm h k).append_left ks).trans List.perm_middle)
  simpa [filter, toList] using hfold (h.toList.filter p) empty

theorem filter_subperm (p : HeapKey K → Bool) (h : Heap K) :
    (h.filter p).toList.Subperm h.toList :=
  (filter_perm p h).subperm.trans List.filter_sublist.subperm

end Heap

/-! ## Heaps of open nodes -/

section Members

variable {m : Std.TreeMap NodeId (OpenNode K)} {h : SizedHeap K} {id : NodeId}

/-- The heap holds a key of every open node, and knows the number of its keys. -/
structure SizedHeap.Lists (h : SizedHeap K) (m : Std.TreeMap NodeId (OpenNode K)) : Prop where
  size : h.size = h.heap.toList.length
  mem : ∀ id, id ∈ m → id ∈ h.heap.toList.map HeapKey.id

theorem SizedHeap.Lists.mono {m' : Std.TreeMap NodeId (OpenNode K)} (hl : h.Lists m)
    (hsub : ∀ id, id ∈ m' → id ∈ m) : h.Lists m' :=
  ⟨hl.size, fun id hid => hl.mem id (hsub id hid)⟩

theorem mem_of_mem_erase {n : NodeId} (hn : n ∈ m.erase id) : n ∈ m :=
  (Std.TreeMap.mem_erase.mp hn).2

theorem erase_of_not_mem (hid : id ∉ m) {n : NodeId} (hn : n ∈ m) : n ∈ m.erase id := by
  refine Std.TreeMap.mem_erase.mpr ⟨fun heq => hid ?_, hn⟩
  rwa [Nat.compare_eq_eq.mp heq]

variable [Scalar K]

theorem SizedHeap.Lists.insert {k : HeapKey K} {e : OpenNode K} (hl : h.Lists m) :
    (h.insert k).Lists (m.insert k.id e) := by
  have hperm := Heap.insert_perm h.heap k
  refine ⟨?_, fun id hid => ?_⟩
  · show h.size + 1 = (h.heap.insert k).toList.length
    rw [hl.size, hperm.length_eq, List.length_cons]
  · show id ∈ (h.heap.insert k).toList.map HeapKey.id
    rw [(hperm.map HeapKey.id).mem_iff, List.map_cons, List.mem_cons]
    rcases Std.TreeMap.mem_insert.mp hid with hsame | hmem
    · exact .inl (Nat.compare_eq_eq.mp hsame).symm
    · exact .inr (hl.mem id hmem)

theorem SizedHeap.Lists.filter (hl : h.Lists m) {p : HeapKey K → Bool}
    (hp : ∀ k, k.id ∈ m → p k = true) : (h.filter p).Lists m := by
  have hperm := Heap.filter_perm p h.heap
  refine ⟨Heap.size_eq_length _, fun id hid => ?_⟩
  obtain ⟨k, hk, rfl⟩ := List.mem_map.mp (hl.mem id hid)
  show k.id ∈ (h.heap.filter p).toList.map HeapKey.id
  rw [(hperm.map HeapKey.id).mem_iff]
  exact List.mem_map_of_mem (List.mem_filter.mpr ⟨hk, hp k hid⟩)

/-- Behind the first key of a heap. -/
theorem SizedHeap.Lists.rest (hl : h.Lists m) {k : HeapKey K} {heap : Heap K}
    (hpop : h.heap.pop? = some (k, heap)) :
    (⟨heap, h.size - 1⟩ : SizedHeap K).Lists (m.erase k.id) := by
  have hperm := Heap.pop?_perm hpop
  have hsize : h.size = heap.toList.length + 1 := by
    rw [hl.size, hperm.length_eq, List.length_cons]
  refine ⟨?_, fun id hid => ?_⟩
  · show h.size - 1 = heap.toList.length
    omega
  · obtain ⟨hne, hmem⟩ := Std.TreeMap.mem_erase.mp hid
    have hlist := hl.mem id hmem
    rw [(hperm.map HeapKey.id).mem_iff, List.map_cons, List.mem_cons] at hlist
    rcases hlist with rfl | hlist
    · exact (hne (Nat.compare_eq_eq.mpr rfl)).elim
    · exact hlist

namespace Queue

/-- Outdated keys are dropped from the front, up to the first key of an open node or
to the end. -/
theorem firstOpen_cases {P : SizedHeap K → Prop} (hP : P h)
    (hsize : ∀ h, P h → h.size = h.heap.toList.length)
    (hdrop : ∀ h k heap, P h → h.heap.pop? = some (k, heap) → k.id ∉ m → P ⟨heap, h.size - 1⟩)
    {fuel : Nat} (hfuel : h.size < fuel) :
    (∃ h₀ k heap, P h₀ ∧ h₀.heap.pop? = some (k, heap) ∧ k.id ∈ m ∧
      popOpen? m h fuel = (some k.id, ⟨heap, h₀.size - 1⟩) ∧
      dropStale m h fuel = (some k.first, h₀)) ∨
    (∃ h₀, P h₀ ∧ h₀.heap.pop? = none ∧ popOpen? m h fuel = (none, h₀) ∧
      dropStale m h fuel = (none, h₀)) := by
  induction fuel generalizing h with
  | zero => exact (Nat.not_lt_zero _ hfuel).elim
  | succ fuel ih =>
    unfold popOpen? dropStale
    cases hpop : h.heap.pop? with
    | none => exact .inr ⟨h, hP, hpop, rfl, rfl⟩
    | some popped =>
      obtain ⟨k, heap⟩ := popped
      dsimp only
      by_cases hk : m.contains k.id = true
      · rw [if_pos hk, if_pos hk]
        exact .inl ⟨h, k, heap, hP, hpop, Std.TreeMap.mem_iff_contains.mpr hk, rfl, rfl⟩
      · rw [if_neg hk, if_neg hk]
        have hk' : k.id ∉ m := fun hmem => hk (Std.TreeMap.mem_iff_contains.mp hmem)
        have hlength := hsize h hP
        rw [(Heap.pop?_perm hpop).length_eq, List.length_cons] at hlength
        exact ih (hdrop h k heap hP hpop hk') (by show h.size - 1 < fuel; omega)

/-- A heap that lists all open nodes does so behind the outdated keys. -/
theorem firstOpen_lists (hl : h.Lists m) {fuel : Nat} (hfuel : h.size < fuel) :
    (∃ h₀ k heap, h₀.Lists m ∧ h₀.heap.pop? = some (k, heap) ∧ k.id ∈ m ∧
      popOpen? m h fuel = (some k.id, ⟨heap, h₀.size - 1⟩) ∧
      dropStale m h fuel = (some k.first, h₀)) ∨
    (∃ h₀, h₀.Lists m ∧ h₀.heap.pop? = none ∧ popOpen? m h fuel = (none, h₀) ∧
      dropStale m h fuel = (none, h₀)) :=
  firstOpen_cases (P := fun h => h.Lists m) hl (fun _ hl => hl.size)
    (fun _ _ _ hl hpop hk => (hl.rest hpop).mono fun _ hid => erase_of_not_mem hk hid) hfuel

/-- The first open node of a heap that lists all of them. -/
theorem popOpen?_spec (hl : h.Lists m) {fuel : Nat} (hfuel : h.size < fuel) :
    match popOpen? m h fuel with
    | (some id, h') => id ∈ m ∧ h'.Lists (m.erase id)
    | (none, h') => (∀ id, id ∉ m) ∧ h'.Lists m := by
  rcases firstOpen_lists hl hfuel with
    ⟨h₀, k, heap, hl₀, hpop, hk, heq, -⟩ | ⟨h₀, hl₀, hpop, heq, -⟩
  · rw [heq]
    exact ⟨hk, hl₀.rest hpop⟩
  · rw [heq]
    refine ⟨fun id hid => ?_, hl₀⟩
    have hlist := hl₀.mem id hid
    rw [Heap.pop?_none hpop] at hlist
    cases hlist

theorem dropStale_lists (hl : h.Lists m) {fuel : Nat} (hfuel : h.size < fuel) :
    (dropStale m h fuel).2.Lists m := by
  rcases firstOpen_lists hl hfuel with ⟨h₀, k, heap, hl₀, -, -, -, heq⟩ | ⟨h₀, hl₀, -, -, heq⟩
  · rw [heq]
    exact hl₀
  · rw [heq]
    exact hl₀

/-! ## The queue -/

/-- All heaps hold a key of every open node. -/
structure Wf (q : Queue K) : Prop where
  byBound : q.byBound.Lists q.members
  byDepth : q.byDepth.Lists q.members
  byEstimate : q.byEstimate.Lists q.members

variable {q : Queue K}

omit [Scalar K] in
theorem Wf.mono (hq : q.Wf) {m : Std.TreeMap NodeId (OpenNode K)}
    (hsub : ∀ id, id ∈ m → id ∈ q.members) : Wf { q with members := m } :=
  ⟨hq.byBound.mono hsub, hq.byDepth.mono hsub, hq.byEstimate.mono hsub⟩

omit [Scalar K] in
theorem new_wf (selection : NodeSelection) : (new selection : Queue K).Wf := by
  have hempty : ({} : SizedHeap K).Lists ∅ :=
    ⟨rfl, fun id hid => (Std.TreeMap.not_mem_emptyc hid).elim⟩
  exact ⟨hempty, hempty, hempty⟩

theorem push_wf (hq : q.Wf) (id : NodeId) (bound estimate : K) (depth : Nat) :
    (q.push id bound estimate depth).Wf :=
  ⟨hq.byBound.insert, hq.byDepth.insert, hq.byEstimate.insert⟩

theorem compact_members (q : Queue K) : q.compact.members = q.members := by
  unfold compact
  split <;> rfl

theorem compact_wf (hq : q.Wf) : q.compact.Wf := by
  unfold compact
  split
  · exact hq
  · have hopen : ∀ k : HeapKey K, k.id ∈ q.members → q.members.contains k.id = true :=
      fun k hk => Std.TreeMap.mem_iff_contains.mp hk
    exact ⟨hq.byBound.filter hopen, hq.byDepth.filter hopen, hq.byEstimate.filter hopen⟩

/-- What a pick comes to: an open node, unless there is none. -/
def Picks (q : Queue K) : Option NodeId × Queue K → Prop
  | (some id, q') => id ∈ q.members ∧ q'.members = q.members ∧
      Wf { q' with members := q.members.erase id }
  | (none, q') => (∀ id, id ∉ q.members) ∧ q'.members = q.members ∧ q'.Wf

theorem popBound_picks (hq : q.Wf) : q.Picks q.popBound := by
  have hspec := popOpen?_spec hq.byBound (Nat.lt_succ_self _)
  unfold popBound
  cases hpop : popOpen? q.members q.byBound (q.byBound.size + 1) with
  | mk id h =>
    rw [hpop] at hspec
    cases id with
    | none => exact ⟨hspec.1, rfl, hspec.2, hq.byDepth, hq.byEstimate⟩
    | some id =>
      exact ⟨hspec.1, rfl, hspec.2, hq.byDepth.mono fun _ => mem_of_mem_erase,
        hq.byEstimate.mono fun _ => mem_of_mem_erase⟩

theorem popDepth_picks (hq : q.Wf) : q.Picks q.popDepth := by
  have hspec := popOpen?_spec hq.byDepth (Nat.lt_succ_self _)
  unfold popDepth
  cases hpop : popOpen? q.members q.byDepth (q.byDepth.size + 1) with
  | mk id h =>
    rw [hpop] at hspec
    cases id with
    | none => exact ⟨hspec.1, rfl, hq.byBound, hspec.2, hq.byEstimate⟩
    | some id =>
      exact ⟨hspec.1, rfl, hq.byBound.mono fun _ => mem_of_mem_erase, hspec.2,
        hq.byEstimate.mono fun _ => mem_of_mem_erase⟩

theorem popEstimate_picks (hq : q.Wf) : q.Picks q.popEstimate := by
  have hspec := popOpen?_spec hq.byEstimate (Nat.lt_succ_self _)
  unfold popEstimate
  cases hpop : popOpen? q.members q.byEstimate (q.byEstimate.size + 1) with
  | mk id h =>
    rw [hpop] at hspec
    cases id with
    | none => exact ⟨hspec.1, rfl, hq.byBound, hq.byDepth, hspec.2⟩
    | some id =>
      exact ⟨hspec.1, rfl, hq.byBound.mono fun _ => mem_of_mem_erase,
        hq.byDepth.mono fun _ => mem_of_mem_erase, hspec.2⟩

theorem betterChild_cases (a b : NodeId × K) : betterChild a b = a ∨ betterChild a b = b := by
  unfold betterChild
  split
  · exact .inr rfl
  · exact .inl rfl

theorem foldl_betterChild_mem (cs : List (NodeId × K)) (c : NodeId × K) :
    cs.foldl betterChild c ∈ c :: cs := by
  induction cs generalizing c with
  | nil => exact List.mem_singleton_self c
  | cons d cs ih =>
    rw [List.foldl_cons]
    rcases betterChild_cases c d with hc | hd
    · rw [hc]
      rcases List.mem_cons.mp (ih c) with heq | hmem
      · rw [heq]
        exact List.mem_cons_self
      · exact List.mem_cons_of_mem _ (List.mem_cons_of_mem _ hmem)
    · rw [hd]
      exact List.mem_cons_of_mem _ (ih d)

theorem plungeChild?_mem {id : NodeId} (h : q.plungeChild? = some id) : id ∈ q.members := by
  unfold plungeChild? at h
  dsimp only at h
  cases hopened : q.lastChildren.filterMap fun id => q.members[id]?.map fun e => (id, e.bound) with
  | nil =>
    rw [hopened] at h
    cases h
  | cons c cs =>
    rw [hopened] at h
    obtain rfl := Option.some.inj h
    have hmem := foldl_betterChild_mem cs c
    rw [← hopened] at hmem
    obtain ⟨n, -, hn⟩ := List.mem_filterMap.mp hmem
    obtain ⟨e, he, heq⟩ := Option.map_eq_some_iff.mp hn
    rw [← heq]
    exact Std.TreeMap.mem_iff_isSome_getElem?.mpr (by rw [he]; rfl)

/-- **Whatever the rule, a pick finds an open node as long as there is one.** -/
theorem pick_picks (hq : q.Wf) : q.Picks q.pick := by
  have hreset : Wf { q with plungeDepth := 0 } := ⟨hq.byBound, hq.byDepth, hq.byEstimate⟩
  have hbound := popBound_picks hreset
  unfold pick
  split
  · exact popBound_picks hq
  · exact popDepth_picks hq
  · exact popEstimate_picks hq
  · split
    · exact popDepth_picks hq
    · exact popBound_picks hq
  · split
    · exact popBound_picks hq
    · exact popDepth_picks hq
  · cases hplunge : q.plungeChild? with
    | none => exact hbound
    | some id =>
      dsimp only
      split
      · have hsub : Wf { q with members := q.members.erase id } :=
          hq.mono fun _ => mem_of_mem_erase
        exact ⟨plungeChild?_mem hplunge, rfl, hsub.byBound, hsub.byDepth, hsub.byEstimate⟩
      · exact hbound

/-- Taking the next node: it leaves the open ones, and all else stays. -/
theorem pop_spec (hq : q.Wf) :
    match q.pop with
    | (some id, q') => id ∈ q.members ∧ q'.members = q.members.erase id ∧ q'.Wf
    | (none, q') => (∀ id, id ∉ q.members) ∧ q'.members = q.members ∧ q'.Wf := by
  unfold pop
  by_cases hempty : q.isEmpty = true
  · rw [if_pos hempty]
    exact ⟨Std.TreeMap.isEmpty_iff_forall_not_mem.mp hempty, rfl, hq⟩
  · rw [if_neg hempty]
    have hpick := pick_picks hq
    cases hp : q.pick with
    | mk id q' =>
      rw [hp] at hpick
      cases id with
      | none => exact hpick
      | some id =>
        obtain ⟨hmem, hmembers, hwf⟩ := hpick
        dsimp only
        rw [compact_members, hmembers]
        exact ⟨hmem, rfl, compact_wf ⟨hwf.byBound, hwf.byDepth, hwf.byEstimate⟩⟩

theorem bestBound_spec (hq : q.Wf) : q.bestBound.2.members = q.members ∧ q.bestBound.2.Wf := by
  have hlists := dropStale_lists hq.byBound (Nat.lt_succ_self _)
  unfold bestBound
  exact ⟨rfl, hlists, hq.byDepth, hq.byEstimate⟩

omit [Scalar K] in
theorem getElem?_foldl_erase (m : Std.TreeMap NodeId (OpenNode K)) (removed : List NodeId)
    (id : NodeId) : (removed.foldl (fun m n => m.erase n) m)[id]? =
      if id ∈ removed then none else m[id]? := by
  induction removed generalizing m with
  | nil => simp
  | cons n removed ih =>
    rw [List.foldl_cons, ih, Std.TreeMap.getElem?_erase]
    by_cases hid : id = n
    · simp [hid]
    · have hne : ¬ n = id := fun h => hid h.symm
      simp [hid, hne]

omit [Scalar K] in
theorem foldl_erase_wf (hq : q.Wf) (removed : List NodeId) :
    Wf { q with members := removed.foldl (fun m n => m.erase n) q.members } := by
  refine hq.mono fun id hid => ?_
  rw [Std.TreeMap.mem_iff_isSome_getElem?, getElem?_foldl_erase] at hid
  split at hid
  · cases hid
  · exact Std.TreeMap.mem_iff_isSome_getElem?.mpr hid

/-- Pruning takes out exactly the nodes whose bounds satisfy the condition. -/
theorem prune_spec (hq : q.Wf) (prunable : K → Bool) :
    (∀ id, id ∈ (q.prune prunable).1 ↔ ∃ e, q.members[id]? = some e ∧ prunable e.bound = true) ∧
      (∀ id, (q.prune prunable).2.members[id]? =
        if id ∈ (q.prune prunable).1 then none else q.members[id]?) ∧
      (q.prune prunable).2.Wf := by
  have hmembers : (q.prune prunable).2.members =
      (q.prune prunable).1.foldl (fun m n => m.erase n) q.members := compact_members _
  refine ⟨fun id => ?_, fun id => by rw [hmembers, getElem?_foldl_erase], compact_wf (foldl_erase_wf hq _)⟩
  show id ∈ (q.members.toList.filter fun e => prunable e.2.bound).map Prod.fst ↔ _
  rw [List.mem_map]
  constructor
  · rintro ⟨⟨n, e⟩, hmem, rfl⟩
    obtain ⟨hlist, hprunable⟩ := List.mem_filter.mp hmem
    exact ⟨e, Std.TreeMap.mem_toList_iff_getElem?_eq_some.mp hlist, hprunable⟩
  · rintro ⟨e, he, hprunable⟩
    exact ⟨(id, e), List.mem_filter.mpr
      ⟨Std.TreeMap.mem_toList_iff_getElem?_eq_some.mpr he, hprunable⟩, rfl⟩

theorem prune_nodup (q : Queue K) (prunable : K → Bool) : (q.prune prunable).1.Nodup := by
  have hkeys : (q.members.toList.map Prod.fst).Nodup := by
    rw [Std.TreeMap.map_fst_toList_eq_keys]
    exact Std.TreeMap.nodup_keys
  exact hkeys.sublist (List.filter_sublist.map _)

omit [Scalar K] in
/-- Draining takes out every node. -/
theorem drain_spec (q : Queue K) : q.drain.1.Nodup ∧ (∀ id, id ∈ q.drain.1 ↔ id ∈ q.members) ∧
    (∀ id, id ∉ q.drain.2.members) ∧ q.drain.2.Wf :=
  have hempty := new_wf (K := K) q.selection
  ⟨Std.TreeMap.nodup_keys, fun _ => Std.TreeMap.mem_keys, fun _ => Std.TreeMap.not_mem_emptyc,
    hempty.byBound, hempty.byDepth, hempty.byEstimate⟩

/-! ## Counting the open nodes -/

omit [Scalar K] in
theorem size_foldl_erase {removed : List NodeId} (hnodup : removed.Nodup)
    (hmem : ∀ id ∈ removed, id ∈ m) : (removed.foldl (fun m n => m.erase n) m).size + removed.length = m.size := by
  induction removed generalizing m with
  | nil => rfl
  | cons n removed ih =>
    obtain ⟨hn, hnodup⟩ := List.nodup_cons.mp hnodup
    have hin := hmem n (by simp)
    have hrest := ih (m := m.erase n) hnodup fun id hid => Std.TreeMap.mem_erase.mpr
      ⟨fun heq => hn (Nat.compare_eq_eq.mp heq ▸ hid), hmem id (by simp [hid])⟩
    have hpos : 0 < m.size := by
      have hsome : m.isEmpty = false := Std.TreeMap.isEmpty_eq_false_iff_exists_mem.mpr ⟨n, hin⟩
      rw [Std.TreeMap.isEmpty_eq_size_eq_zero] at hsome
      exact Nat.pos_of_ne_zero (of_decide_eq_false hsome)
    rw [Std.TreeMap.size_erase, if_pos (Std.TreeMap.mem_iff_contains.mp hin)] at hrest
    simp only [List.foldl_cons, List.length_cons]
    omega

/-- Taking a node out. -/
theorem pop_size (hq : q.Wf) : (∀ id, id ∈ q.pop.2.members → id ∈ q.members) ∧
    q.pop.2.size + q.pop.1.toList.length = q.size := by
  have hpop := pop_spec hq
  revert hpop
  cases q.pop with
  | mk id q' =>
    cases id with
    | none =>
      intro hpop
      simp [Queue.size, hpop.2.1]
    | some id =>
      intro hpop
      obtain ⟨hid, hmembers, -⟩ := hpop
      have hsize := size_foldl_erase (List.nodup_singleton id) fun n hn => List.mem_singleton.mp hn ▸ hid
      simp only [Queue.size, hmembers]
      exact ⟨fun n => mem_of_mem_erase, hsize⟩

theorem prune_size (hq : q.Wf) (prunable : K → Bool) :
    (∀ id, id ∈ (q.prune prunable).2.members → id ∈ q.members) ∧
      (q.prune prunable).2.size + (q.prune prunable).1.length = q.size := by
  obtain ⟨hremoved, hkept, -⟩ := prune_spec hq prunable
  have hmembers : (q.prune prunable).2.members =
      (q.prune prunable).1.foldl (fun m n => m.erase n) q.members := compact_members _
  refine ⟨fun id hid => ?_, ?_⟩
  · rw [Std.TreeMap.mem_iff_isSome_getElem?, hkept] at hid
    split at hid
    · cases hid
    · exact Std.TreeMap.mem_iff_isSome_getElem?.mpr hid
  · unfold Queue.size
    rw [hmembers]
    refine size_foldl_erase (prune_nodup q prunable) fun id hid => ?_
    obtain ⟨e, he, -⟩ := (hremoved id).mp hid
    exact Std.TreeMap.mem_iff_isSome_getElem?.mpr (by simp [he])

/-- Putting a new node in. -/
theorem push_size {id : NodeId} (hid : id ∉ q.members) (bound estimate : K) (depth : Nat) :
    (q.push id bound estimate depth).size = q.size + 1 := by
  have hnot : q.members.contains id = false := by
    rw [← Bool.not_eq_true, ← Std.TreeMap.mem_iff_contains]
    exact hid
  show (q.members.insert id _).size = _
  rw [Std.TreeMap.size_insert, hnot]
  rfl

/-! ## Taking out keys -/

theorem popOpen?_subperm (h : SizedHeap K) (fuel : Nat) :
    (popOpen? m h fuel).2.heap.toList.Subperm h.heap.toList := by
  induction fuel generalizing h with
  | zero => exact .refl _
  | succ fuel ih =>
    unfold popOpen?
    cases hpop : h.heap.pop? with
    | none => exact .refl _
    | some popped =>
      obtain ⟨key, heap⟩ := popped
      have hrest := Heap.pop?_subperm hpop
      dsimp only
      split
      · exact hrest
      · exact (ih _).trans hrest

theorem dropStale_subperm (h : SizedHeap K) (fuel : Nat) :
    (dropStale m h fuel).2.heap.toList.Subperm h.heap.toList := by
  induction fuel generalizing h with
  | zero => exact .refl _
  | succ fuel ih =>
    unfold dropStale
    cases hpop : h.heap.pop? with
    | none => exact .refl _
    | some popped =>
      dsimp only
      split
      · exact .refl _
      · exact (ih _).trans (Heap.pop?_subperm hpop)

/-- The heaps of `q'` hold keys of `q` only, and none more often. -/
structure Sheds (q q' : Queue K) : Prop where
  byBound : q'.byBound.heap.toList.Subperm q.byBound.heap.toList
  byDepth : q'.byDepth.heap.toList.Subperm q.byDepth.heap.toList
  byEstimate : q'.byEstimate.heap.toList.Subperm q.byEstimate.heap.toList

omit [Scalar K] in
theorem Sheds.refl (q : Queue K) : q.Sheds q := ⟨.refl _, .refl _, .refl _⟩

omit [Scalar K] in
theorem Sheds.trans {q' q'' : Queue K} (h : q.Sheds q') (h' : q'.Sheds q'') : q.Sheds q'' :=
  ⟨h'.byBound.trans h.byBound, h'.byDepth.trans h.byDepth, h'.byEstimate.trans h.byEstimate⟩

theorem compact_sheds (q : Queue K) : q.Sheds q.compact := by
  unfold compact
  split
  · exact .refl q
  · exact ⟨Heap.filter_subperm _ _, Heap.filter_subperm _ _, Heap.filter_subperm _ _⟩

theorem pick_sheds (q : Queue K) : q.Sheds q.pick.2 := by
  have hbound : ∀ q : Queue K, q.Sheds q.popBound.2 := fun q =>
    ⟨popOpen?_subperm q.byBound (q.byBound.size + 1), .refl _, .refl _⟩
  have hdepth : q.Sheds q.popDepth.2 :=
    ⟨.refl _, popOpen?_subperm q.byDepth (q.byDepth.size + 1), .refl _⟩
  have hestimate : q.Sheds q.popEstimate.2 :=
    ⟨.refl _, .refl _, popOpen?_subperm q.byEstimate (q.byEstimate.size + 1)⟩
  have hreset : q.Sheds { q with plungeDepth := 0 } := ⟨.refl _, .refl _, .refl _⟩
  unfold pick
  split
  · exact hbound q
  · exact hdepth
  · exact hestimate
  · split
    · exact hdepth
    · exact hbound q
  · split
    · exact hbound q
    · exact hdepth
  · split
    · split
      · exact ⟨.refl _, .refl _, .refl _⟩
      · exact hreset.trans (hbound _)
    · exact hreset.trans (hbound _)

/-- A pick leaves the open nodes and the selection rule alone. -/
theorem pick_keeps (q : Queue K) : q.pick.2.members = q.members ∧ q.pick.2.selection = q.selection := by
  unfold pick
  split
  · exact ⟨rfl, rfl⟩
  · exact ⟨rfl, rfl⟩
  · exact ⟨rfl, rfl⟩
  · split <;> exact ⟨rfl, rfl⟩
  · split <;> exact ⟨rfl, rfl⟩
  · split
    · split <;> exact ⟨rfl, rfl⟩
    · exact ⟨rfl, rfl⟩

/-- The queue behind a picked node, before the heaps are compacted. -/
def without (q : Queue K) (id : NodeId) : Queue K :=
  { q with
    members := q.members.erase id
    lastChildren := []
    totalPopped := q.totalPopped + 1 }

omit [Scalar K] in
theorem without_sheds (q : Queue K) (id : NodeId) : q.Sheds (q.without id) :=
  ⟨.refl _, .refl _, .refl _⟩

/-- The ways in which the next node is taken: no node is open, the pick finds none, or what
it finds is taken out. -/
theorem pop_cases (q : Queue K) :
    q.pop = (none, q) ∨ (q.pick.1 = none ∧ q.pop = (none, q.pick.2)) ∨
      ∃ id, q.pick.1 = some id ∧ q.pop = (some id, (q.pick.2.without id).compact) := by
  unfold pop
  by_cases hempty : q.isEmpty = true
  · rw [if_pos hempty]
    exact .inl rfl
  · rw [if_neg hempty]
    cases q.pick with
    | mk id q' =>
      cases id with
      | none => exact .inr (.inl ⟨rfl, rfl⟩)
      | some id => exact .inr (.inr ⟨id, rfl, rfl⟩)

theorem pop_sheds (q : Queue K) : q.Sheds q.pop.2 := by
  rcases pop_cases q with hpop | ⟨-, hpop⟩ | ⟨id, -, hpop⟩
  · rw [hpop]
    exact .refl q
  · rw [hpop]
    exact pick_sheds q
  · rw [hpop]
    exact ((pick_sheds q).trans (without_sheds _ id)).trans (compact_sheds _)

theorem prune_sheds (q : Queue K) (prunable : K → Bool) : q.Sheds (q.prune prunable).2 := by
  have herase : q.Sheds { q with
      members := (q.prune prunable).1.foldl (fun m n => m.erase n) q.members } :=
    ⟨.refl _, .refl _, .refl _⟩
  exact herase.trans (compact_sheds _)

theorem bestBound_sheds (q : Queue K) : q.Sheds q.bestBound.2 :=
  ⟨dropStale_subperm q.byBound (q.byBound.size + 1), .refl _, .refl _⟩

end Queue

end Members

end BranchAndCut

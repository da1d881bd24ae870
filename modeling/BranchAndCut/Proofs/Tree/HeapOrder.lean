import BranchAndCut.Proofs.Order
import BranchAndCut.Proofs.Tree.Queue

/-! # The order of heaps

Where numbers are linearly ordered, the first key of a heap comes before all others.
The heaps of the queue hold outdated keys next to the keys of the open nodes; as no
number is used twice, the first key of an open node is that of the least one. -/

namespace BranchAndCut

variable {K : Type} [Scalar K] [Std.TransCmp (Scalar.totalOrder : K → K → Ordering)]

namespace HeapKey

instance : Std.TransCmp (compare : HeapKey K → HeapKey K → Ordering) := by
  let _ : Ord K := ⟨Scalar.totalOrder⟩
  have : Std.TransOrd K := inferInstanceAs (Std.TransCmp (Scalar.totalOrder : K → K → Ordering))
  exact inferInstanceAs (Std.TransCmp (compareLex (compareOn HeapKey.first)
    (compareLex (compareOn HeapKey.second) (compareOn HeapKey.id))))

omit [Std.TransCmp (Scalar.totalOrder : K → K → Ordering)] in
theorem le_iff {a b : HeapKey K} : a.le b = true ↔ (a.compare b).isLE = true := by
  unfold le
  cases a.compare b <;> decide

theorem le_refl (a : HeapKey K) : a.le a = true :=
  le_iff.mpr Std.ReflCmp.isLE_rfl

theorem le_trans {a b c : HeapKey K} (hab : a.le b = true) (hbc : b.le c = true) :
    a.le c = true :=
  le_iff.mpr (Std.TransCmp.isLE_trans (le_iff.mp hab) (le_iff.mp hbc))

theorem le_of_not_le {a b : HeapKey K} (h : ¬ a.le b = true) : b.le a = true := by
  rw [le_iff] at h ⊢
  refine Std.OrientedCmp.isGE_iff_isLE.mp ?_
  cases hab : a.compare b with
  | lt => exact (h (by rw [hab]; rfl)).elim
  | eq => rfl
  | gt => rfl

end HeapKey

namespace Heap

/-- No key comes before one above it. -/
def Ordered : Heap K → Prop
  | empty => True
  | node _ k l r => (∀ x ∈ l.toList ++ r.toList, k.le x = true) ∧ l.Ordered ∧ r.Ordered

omit [Std.TransCmp (Scalar.totalOrder : K → K → Ordering)] in
theorem make_ordered {k : HeapKey K} {a b : Heap K} (hk : ∀ x ∈ a.toList ++ b.toList, k.le x = true)
    (ha : a.Ordered) (hb : b.Ordered) : (make k a b).Ordered := by
  unfold make
  split
  · exact ⟨hk, ha, hb⟩
  · exact ⟨fun x hx => hk x (List.perm_append_comm.mem_iff.mp hx), hb, ha⟩

/-- The first key of a heap comes no later than any other. -/
theorem Ordered.root_le {rank : Nat} {k : HeapKey K} {l r : Heap K}
    (h : (node rank k l r).Ordered) : ∀ x ∈ (node rank k l r).toList, k.le x = true := by
  intro x hx
  rcases List.mem_cons.mp hx with rfl | hx
  · exact HeapKey.le_refl x
  · exact h.1 x hx

theorem merge_ordered {a b : Heap K} (ha : a.Ordered) (hb : b.Ordered) : (merge a b).Ordered := by
  induction a, b using merge.induct with
  | case1 b =>
    rw [merge]
    exact hb
  | case2 a hne =>
    cases a with
    | empty => exact (hne rfl).elim
    | node m x l r =>
      rw [merge]
      · exact ha
      · rintro ⟨⟩
  | case3 m x l r n y l' r' hle ih =>
    rw [merge, if_pos hle]
    refine make_ordered (fun z hz => ?_) ha.2.1 (ih ha.2.2 hb)
    rcases List.mem_append.mp hz with hz | hz
    · exact ha.1 z (List.mem_append_left _ hz)
    · rcases List.mem_append.mp ((merge_perm _ _).mem_iff.mp hz) with hz | hz
      · exact ha.1 z (List.mem_append_right _ hz)
      · exact HeapKey.le_trans hle (hb.root_le z hz)
  | case4 m x l r n y l' r' hle ih =>
    have hle' := HeapKey.le_of_not_le hle
    rw [merge, if_neg hle]
    refine make_ordered (fun z hz => ?_) hb.2.1 (ih ha hb.2.2)
    rcases List.mem_append.mp hz with hz | hz
    · exact hb.1 z (List.mem_append_left _ hz)
    · rcases List.mem_append.mp ((merge_perm _ _).mem_iff.mp hz) with hz | hz
      · exact HeapKey.le_trans hle' (ha.root_le z hz)
      · exact hb.1 z (List.mem_append_right _ hz)

theorem insert_ordered {h : Heap K} (hh : h.Ordered) (k : HeapKey K) : (h.insert k).Ordered := by
  have hk : (node 1 k empty empty).Ordered := ⟨fun x hx => (List.not_mem_nil hx).elim, trivial, trivial⟩
  exact merge_ordered hk hh

theorem filter_ordered (p : HeapKey K → Bool) (h : Heap K) : (h.filter p).Ordered := by
  have hfold : ∀ (ks : List (HeapKey K)) (h : Heap K), h.Ordered → (ks.foldl insert h).Ordered := by
    intro ks
    induction ks with
    | nil => exact fun h hh => hh
    | cons k ks ih => exact fun h hh => ih _ (insert_ordered hh k)
  exact hfold _ empty trivial

theorem pop?_least {h rest : Heap K} {k : HeapKey K} (hh : h.Ordered)
    (hpop : h.pop? = some (k, rest)) : rest.Ordered ∧ ∀ x ∈ h.toList, k.le x = true := by
  cases h with
  | empty => cases hpop
  | node rank k' l r =>
    cases hpop
    exact ⟨merge_ordered hh.2.1 hh.2.2, hh.root_le⟩

end Heap

/-! ## Keys of open nodes -/

section Members

variable {m : Std.TreeMap NodeId (OpenNode K)} {h : SizedHeap K} {used : NodeId → Prop}
  {key : NodeId → OpenNode K → HeapKey K}

/-- The heap is ordered and holds the key of every open node, and otherwise keys of
numbers that are in use no more. -/
structure SizedHeap.Tracks (h : SizedHeap K) (m : Std.TreeMap NodeId (OpenNode K))
    (key : NodeId → OpenNode K → HeapKey K) (used : NodeId → Prop) : Prop where
  lists : h.Lists m
  ordered : h.heap.Ordered
  current : ∀ k ∈ h.heap.toList, ∀ e, m[k.id]? = some e → k = key k.id e
  used : ∀ k ∈ h.heap.toList, used k.id

omit [Std.TransCmp (Scalar.totalOrder : K → K → Ordering)] in
theorem SizedHeap.Tracks.mem (ht : h.Tracks m key used) {id : NodeId} {e : OpenNode K}
    (he : m[id]? = some e) : key id e ∈ h.heap.toList := by
  have hid : id ∈ m := Std.TreeMap.mem_iff_isSome_getElem?.mpr (by rw [he]; rfl)
  obtain ⟨k, hk, rfl⟩ := List.mem_map.mp (ht.lists.mem id hid)
  exact ht.current k hk e he ▸ hk

omit [Std.TransCmp (Scalar.totalOrder : K → K → Ordering)] in
theorem SizedHeap.Tracks.mono {m' : Std.TreeMap NodeId (OpenNode K)} (ht : h.Tracks m key used)
    (hsub : ∀ (id : NodeId) (e : OpenNode K), m'[id]? = some e → m[id]? = some e) :
    h.Tracks m' key used := by
  refine ⟨ht.lists.mono fun id hid => ?_, ht.ordered,
    fun k hk e he => ht.current k hk e (hsub _ _ he), ht.used⟩
  rw [Std.TreeMap.mem_iff_isSome_getElem?, Option.isSome_iff_exists] at hid ⊢
  obtain ⟨e, he⟩ := hid
  exact ⟨e, hsub id e he⟩

omit [Std.TransCmp (Scalar.totalOrder : K → K → Ordering)] in
theorem SizedHeap.Tracks.weaken {used' : NodeId → Prop} (ht : h.Tracks m key used)
    (hused : ∀ id, used id → used' id) : h.Tracks m key used' :=
  { ht with used := fun k hk => hused _ (ht.used k hk) }

omit [Scalar K] [Std.TransCmp (Scalar.totalOrder : K → K → Ordering)] in
theorem getElem?_of_erase {id n : NodeId} {e : OpenNode K} (he : (m.erase n)[id]? = some e) :
    m[id]? = some e := by
  rw [Std.TreeMap.getElem?_erase] at he
  split at he
  · cases he
  · exact he

omit [Scalar K] [Std.TransCmp (Scalar.totalOrder : K → K → Ordering)] in
theorem getElem?_erase_of_not_mem {id n : NodeId} {e : OpenNode K} (hn : n ∉ m)
    (he : m[id]? = some e) : (m.erase n)[id]? = some e := by
  rw [Std.TreeMap.getElem?_erase, if_neg, he]
  intro heq
  rw [Nat.compare_eq_eq.mp heq] at hn
  exact hn (Std.TreeMap.mem_iff_isSome_getElem?.mpr (by rw [he]; rfl))

theorem SizedHeap.Tracks.insert (ht : h.Tracks m key used) {id : NodeId} (hid : ¬ used id)
    (hkey : ∀ n e, (key n e).id = n) (e : OpenNode K) :
    (h.insert (key id e)).Tracks (m.insert id e) key fun n => used n ∨ n = id := by
  have hlists := ht.lists.insert (k := key id e) (e := e)
  rw [hkey] at hlists
  have hmem : ∀ k, k ∈ (h.insert (key id e)).heap.toList ↔ k = key id e ∨ k ∈ h.heap.toList :=
    fun k => (Heap.insert_perm h.heap (key id e)).mem_iff.trans List.mem_cons
  refine ⟨hlists, Heap.insert_ordered ht.ordered _, fun k hk e' he' => ?_, fun k hk => ?_⟩
  · rw [Std.TreeMap.getElem?_insert] at he'
    rcases (hmem k).mp hk with rfl | hk
    · rw [hkey, if_pos (Nat.compare_eq_eq.mpr rfl)] at he'
      rw [hkey, Option.some.inj he']
    · have hne : id ≠ k.id := fun heq => hid (heq ▸ ht.used k hk)
      rw [if_neg fun heq => hne (Nat.compare_eq_eq.mp heq)] at he'
      exact ht.current k hk e' he'
  · rcases (hmem k).mp hk with rfl | hk
    · exact .inr (hkey id e)
    · exact .inl (ht.used k hk)

theorem SizedHeap.Tracks.filter (ht : h.Tracks m key used) :
    (h.filter fun k => m.contains k.id).Tracks m key used := by
  have hmem : ∀ k ∈ (h.filter fun k => m.contains k.id).heap.toList, k ∈ h.heap.toList :=
    fun k hk => (List.mem_filter.mp ((Heap.filter_perm _ h.heap).mem_iff.mp hk)).1
  exact ⟨ht.lists.filter fun k hk => Std.TreeMap.mem_iff_contains.mp hk, Heap.filter_ordered _ _,
    fun k hk => ht.current k (hmem k hk), fun k hk => ht.used k (hmem k hk)⟩

/-- Behind the first key of a heap, which comes no later than that of any open node. -/
theorem SizedHeap.Tracks.rest (ht : h.Tracks m key used) {k : HeapKey K} {heap : Heap K}
    (hpop : h.heap.pop? = some (k, heap)) :
    (⟨heap, h.size - 1⟩ : SizedHeap K).Tracks (m.erase k.id) key used ∧
      ∀ (id : NodeId) (e : OpenNode K), m[id]? = some e → k.le (key id e) = true := by
  have hperm := Heap.pop?_perm hpop
  obtain ⟨hordered, hleast⟩ := Heap.pop?_least ht.ordered hpop
  have hmem : ∀ x ∈ heap.toList, x ∈ h.heap.toList := fun x hx =>
    hperm.mem_iff.mpr (List.mem_cons_of_mem _ hx)
  exact ⟨⟨ht.lists.rest hpop, hordered,
    fun x hx e he => ht.current x (hmem x hx) e (getElem?_of_erase he),
    fun x hx => ht.used x (hmem x hx)⟩, fun id e he => hleast _ (ht.mem he)⟩

namespace Queue

/-- Outdated keys are dropped, and the first key of an open node is that of the least one. -/
theorem firstOpen_least (ht : h.Tracks m key used) {fuel : Nat} (hfuel : h.size < fuel) :
    (∃ id e h₀ h', m[id]? = some e ∧
      (∀ (id' : NodeId) (e' : OpenNode K), m[id']? = some e' → (key id e).le (key id' e') = true) ∧
      popOpen? m h fuel = (some id, h') ∧ h'.Tracks (m.erase id) key used ∧
      dropStale m h fuel = (some (key id e).first, h₀) ∧ h₀.Tracks m key used) ∨
    ((∀ id, id ∉ m) ∧ ∃ h₀, popOpen? m h fuel = (none, h₀) ∧ dropStale m h fuel = (none, h₀) ∧
      h₀.Tracks m key used) := by
  rcases firstOpen_cases (P := fun h => h.Tracks m key used) ht (fun h ht => ht.lists.size)
    (fun h k heap ht hpop hk => (ht.rest hpop).1.mono fun id e => getElem?_erase_of_not_mem hk)
    hfuel with
    ⟨h₀, k, heap, ht₀, hpop, hk, hopen, hdrop⟩ | ⟨h₀, ht₀, hpop, hopen, hdrop⟩
  · obtain ⟨hrest, hleast⟩ := ht₀.rest hpop
    rw [Std.TreeMap.mem_iff_isSome_getElem?, Option.isSome_iff_exists] at hk
    obtain ⟨e, he⟩ := hk
    have hmem : k ∈ h₀.heap.toList := (Heap.pop?_perm hpop).mem_iff.mpr List.mem_cons_self
    have hkey := ht₀.current k hmem e he
    refine .inl ⟨k.id, e, h₀, _, he, ?_, hopen, hrest, ?_, ht₀⟩
    · rw [← hkey]
      exact hleast
    · rw [← hkey]
      exact hdrop
  · refine .inr ⟨fun id hid => ?_, h₀, hopen, hdrop, ht₀⟩
    have hlist := ht₀.lists.mem id hid
    rw [Heap.pop?_none hpop] at hlist
    cases hlist

end Queue

end Members

end BranchAndCut

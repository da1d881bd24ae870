import Mathlib.Data.List.Nodup
import BranchAndCut.Proofs.Tree.OpenSet

/-! # The queue answers like the set of its open nodes

Each order of the set is the order of the keys of one heap. So the first open node of
the heap is the least member of the set, and every operation of the queue answers like
the set and leaves both in agreement. -/

namespace BranchAndCut

variable {K : Type} [Scalar K]

/-! ## Orders and keys -/

def OpenNode.boundKey (id : NodeId) (e : OpenNode K) : HeapKey K := { first := e.bound, second := 0, id }

def OpenNode.depthKey (id : NodeId) (e : OpenNode K) : HeapKey K :=
  { first := -(Scalar.ofNat e.depth), second := e.bound, id }

def OpenNode.estimateKey (id : NodeId) (e : OpenNode K) : HeapKey K :=
  { first := e.estimate, second := e.bound, id }

/-- Depths keep their order when they are taken for numbers. -/
def DepthsExact (K : Type) [Scalar K] (depths : List Nat) : Prop :=
  ∀ d ∈ depths, ∀ e ∈ depths,
    Scalar.totalOrder (-(Scalar.ofNat d) : K) (-(Scalar.ofNat e)) = compare e d

instance (depths : List Nat) : Decidable (DepthsExact K depths) :=
  inferInstanceAs (Decidable (∀ d ∈ depths, ∀ e ∈ depths, _))

variable [Std.TransCmp (Scalar.totalOrder : K → K → Ordering)]

namespace OpenSet

instance : Std.TransCmp (byBound : OpenEntry K → OpenEntry K → Ordering) := by
  let _ : Ord K := ⟨Scalar.totalOrder⟩
  have : Std.TransOrd K := inferInstanceAs (Std.TransCmp (Scalar.totalOrder : K → K → Ordering))
  exact inferInstanceAs (Std.TransCmp (compareLex (compareOn fun e : OpenEntry K => e.2.bound)
    (compareOn Prod.fst)))

instance : Std.TransCmp (byDepth : OpenEntry K → OpenEntry K → Ordering) := by
  have : Std.TransCmp fun a b : OpenEntry K => compare b.2.depth a.2.depth :=
    @Std.TransCmp.opposite _ (compareOn fun e : OpenEntry K => e.2.depth) _
  exact inferInstanceAs (Std.TransCmp (compareLex (fun a b : OpenEntry K => compare b.2.depth a.2.depth)
    byBound))

instance : Std.TransCmp (byEstimate : OpenEntry K → OpenEntry K → Ordering) := by
  let _ : Ord K := ⟨Scalar.totalOrder⟩
  have : Std.TransOrd K := inferInstanceAs (Std.TransCmp (Scalar.totalOrder : K → K → Ordering))
  exact inferInstanceAs (Std.TransCmp (compareLex (compareOn fun e : OpenEntry K => e.2.estimate)
    byBound))


omit [Std.TransCmp (Scalar.totalOrder : K → K → Ordering)] in
theorem byBound_eq {a b : OpenEntry K} (h : byBound a b = .eq) : a.1 = b.1 :=
  Nat.compare_eq_eq.mp (Ordering.then_eq_eq.mp h).2

theorem compare_boundKey (a b : OpenEntry K) :
    (OpenNode.boundKey a.1 a.2).compare (OpenNode.boundKey b.1 b.2) = byBound a b := by
  unfold HeapKey.compare OpenNode.boundKey byBound
  have hsecond : Scalar.totalOrder (0 : K) 0 = .eq := Std.ReflCmp.compare_self
  dsimp only
  rw [hsecond]
  rfl

omit [Std.TransCmp (Scalar.totalOrder : K → K → Ordering)] in
theorem compare_depthKey {depths : List Nat} (hdepths : DepthsExact K depths) {a b : OpenEntry K}
    (ha : a.2.depth ∈ depths) (hb : b.2.depth ∈ depths) :
    (OpenNode.depthKey a.1 a.2).compare (OpenNode.depthKey b.1 b.2) = byDepth a b := by
  unfold HeapKey.compare OpenNode.depthKey byDepth
  dsimp only
  rw [hdepths _ ha _ hb]
  rfl

end OpenSet

/-! ## Picks from a heap -/

section Members

variable {m : Std.TreeMap NodeId (OpenNode K)} {h : SizedHeap K} {used : NodeId → Prop}
  {key : NodeId → OpenNode K → HeapKey K} {entries : List (OpenEntry K)}
  {cmp : OpenEntry K → OpenEntry K → Ordering}

/-- The members of the queue are the entries of the set. -/
structure SameEntries (m : Std.TreeMap NodeId (OpenNode K)) (entries : List (OpenEntry K)) : Prop where
  mem : ∀ id e, m[id]? = some e ↔ (id, e) ∈ entries
  nodup : (entries.map Prod.fst).Nodup

omit [Scalar K] [Std.TransCmp (Scalar.totalOrder : K → K → Ordering)] in
theorem SameEntries.eq (hm : SameEntries m entries) {a b : OpenEntry K} (ha : a ∈ entries)
    (hb : b ∈ entries) (hid : a.1 = b.1) : a = b := by
  obtain ⟨i, e⟩ := a
  obtain ⟨j, f⟩ := b
  obtain rfl : i = j := hid
  have he := (hm.mem i e).mpr ha
  rw [(hm.mem i f).mpr hb] at he
  rw [Option.some.inj he]

omit [Scalar K] [Std.TransCmp (Scalar.totalOrder : K → K → Ordering)] in
theorem SameEntries.isEmpty (hm : SameEntries m entries) : m.isEmpty = true ↔ entries = [] := by
  rw [Std.TreeMap.isEmpty_iff_forall_not_mem, List.eq_nil_iff_forall_not_mem]
  constructor
  · rintro hnone ⟨id, e⟩ he
    refine hnone id ?_
    rw [Std.TreeMap.mem_iff_isSome_getElem?, (hm.mem id e).mpr he]
    rfl
  · intro hnone id hid
    rw [Std.TreeMap.mem_iff_isSome_getElem?, Option.isSome_iff_exists] at hid
    obtain ⟨e, he⟩ := hid
    exact hnone _ ((hm.mem id e).mp he)

omit [Scalar K] [Std.TransCmp (Scalar.totalOrder : K → K → Ordering)] in
/-- Nodes that leave the queue leave the set. -/
theorem SameEntries.filter {m' : Std.TreeMap NodeId (OpenNode K)}
    (hm : SameEntries m entries) {p : OpenEntry K → Bool}
    (hsame : ∀ id e, m'[id]? = some e ↔ m[id]? = some e ∧ p (id, e) = true) :
    SameEntries m' (entries.filter p) := by
  refine ⟨fun id e => ?_, hm.nodup.sublist (List.filter_sublist.map _)⟩
  rw [hsame, hm.mem, List.mem_filter]

/-- **The first open node of a heap is the least one of the set**, if keys compare like nodes. -/
theorem firstOpen_eq_least [Std.TransCmp cmp] (hm : SameEntries m entries) (ht : h.Tracks m key used)
    (hkey : ∀ a ∈ entries, ∀ b ∈ entries, (key a.1 a.2).compare (key b.1 b.2) = cmp a b)
    (hid : ∀ a b, cmp a b = .eq → a.1 = b.1) :
    (∃ id e h₀ h', least? cmp entries = some (id, e) ∧
      Queue.popOpen? m h (h.size + 1) = (some id, h') ∧ h'.Tracks (m.erase id) key used ∧
      Queue.dropStale m h (h.size + 1) = (some (key id e).first, h₀) ∧ h₀.Tracks m key used) ∨
    (entries = [] ∧ ∃ h₀, Queue.dropStale m h (h.size + 1) = (none, h₀) ∧ h₀.Tracks m key used) := by
  rcases Queue.firstOpen_least ht (Nat.lt_succ_self _) with
    ⟨id, e, h₀, h', he, hleast, hopen, ht', hdrop, ht₀⟩ | ⟨hnone, h₀, -, hdrop, ht₀⟩
  · have hmem := (hm.mem id e).mp he
    refine .inl ⟨id, e, h₀, h', ?_, hopen, ht', hdrop, ht₀⟩
    refine least?_eq_some hmem (fun b hb => ?_) fun b hb heq => hm.eq hmem hb (hid _ _ heq)
    rw [← hkey (id, e) hmem b hb]
    exact HeapKey.le_iff.mp (hleast b.1 b.2 ((hm.mem _ _).mpr hb))
  · exact .inr ⟨hm.isEmpty.mp (Std.TreeMap.isEmpty_iff_forall_not_mem.mpr hnone), h₀, hdrop, ht₀⟩

/-- The first open node of a heap, as long as there is one. -/
theorem popOpen?_eq_least [Std.TransCmp cmp] (hm : SameEntries m entries) (hne : entries ≠ [])
    (ht : h.Tracks m key used)
    (hkey : ∀ a ∈ entries, ∀ b ∈ entries, (key a.1 a.2).compare (key b.1 b.2) = cmp a b)
    (hid : ∀ a b, cmp a b = .eq → a.1 = b.1) :
    ∃ id e h', Queue.popOpen? m h (h.size + 1) = (some id, h') ∧
      least? cmp entries = some (id, e) ∧ h'.Tracks (m.erase id) key used := by
  rcases firstOpen_eq_least hm ht hkey hid with ⟨id, e, -, h', hleast, hopen, ht', -⟩ | ⟨hnil, -⟩
  · exact ⟨id, e, h', hopen, hleast, ht'⟩
  · exact (hne hnil).elim

end Members

namespace Queue

/-! ## Agreement -/

/-- The three heaps hold the keys of the open nodes in `m`. -/
structure Keys (q : Queue K) (m : Std.TreeMap NodeId (OpenNode K)) (used : NodeId → Prop) : Prop where
  byBound : q.byBound.Tracks m OpenNode.boundKey used
  byDepth : q.byDepth.Tracks m OpenNode.depthKey used
  byEstimate : q.byEstimate.Tracks m OpenNode.estimateKey used

/-- A queue and a set agree on the open nodes and on what the selection rules remember.
The numbers that were ever added are in `used`, and the depths in `depths`. -/
structure Agrees (q : Queue K) (s : OpenSet K) (used : NodeId → Prop) (depths : List Nat) : Prop where
  selection : s.selection = q.selection
  entries : SameEntries q.members s.entries
  lastChildren : s.lastChildren = q.lastChildren
  plunges : s.plunges = q.plungeDepth
  hasIncumbent : s.hasIncumbent = q.hasIncumbent
  picks : s.picks = q.totalPopped
  keys : q.Keys q.members used
  depths : ∀ e ∈ s.entries, e.2.depth ∈ depths

variable {q q' : Queue K} {s : OpenSet K} {used : NodeId → Prop} {depths : List Nat} {id : NodeId}

omit [Std.TransCmp (Scalar.totalOrder : K → K → Ordering)] in
theorem Keys.wf (h : q.Keys q.members used) : q.Wf :=
  ⟨h.byBound.lists, h.byDepth.lists, h.byEstimate.lists⟩

omit [Std.TransCmp (Scalar.totalOrder : K → K → Ordering)] in
theorem Keys.mono {m m' : Std.TreeMap NodeId (OpenNode K)} (h : q.Keys m used)
    (hsub : ∀ (id : NodeId) (e : OpenNode K), m'[id]? = some e → m[id]? = some e) :
    q.Keys m' used :=
  ⟨h.byBound.mono hsub, h.byDepth.mono hsub, h.byEstimate.mono hsub⟩

omit [Std.TransCmp (Scalar.totalOrder : K → K → Ordering)] in
theorem Keys.erase (h : q.Keys q.members used) (id : NodeId) : q.Keys (q.members.erase id) used :=
  h.mono fun _ _ => getElem?_of_erase

theorem Agrees.compact (h : Agrees q s used depths) : Agrees q.compact s used depths := by
  unfold Queue.compact
  split
  · exact h
  · exact { h with
      keys := ⟨h.keys.byBound.filter, h.keys.byDepth.filter, h.keys.byEstimate.filter⟩ }

omit [Std.TransCmp (Scalar.totalOrder : K → K → Ordering)] in
/-- Agreement where no node is open. -/
theorem Agrees.of_empty (hselection : s.selection = q.selection) (hentries : s.entries = [])
    (hmembers : q.members = ∅) (hheaps : q.byBound = {} ∧ q.byDepth = {} ∧ q.byEstimate = {})
    (hlast : s.lastChildren = q.lastChildren) (hplunges : s.plunges = q.plungeDepth)
    (hincumbent : s.hasIncumbent = q.hasIncumbent) (hpicks : s.picks = q.totalPopped) :
    Agrees q s used depths := by
  have hempty : ∀ key, ({} : SizedHeap K).Tracks ∅ key used := fun key =>
    ⟨⟨rfl, fun id hid => (Std.TreeMap.not_mem_emptyc hid).elim⟩, trivial, nofun, nofun⟩
  have hnone : SameEntries (∅ : Std.TreeMap NodeId (OpenNode K)) [] :=
    ⟨fun id e => by simp, List.nodup_nil⟩
  refine ⟨hselection, ?_, hlast, hplunges, hincumbent, hpicks, ⟨?_, ?_, ?_⟩, ?_⟩
  · rw [hmembers, hentries]
    exact hnone
  · rw [hheaps.1, hmembers]
    exact hempty _
  · rw [hheaps.2.1, hmembers]
    exact hempty _
  · rw [hheaps.2.2, hmembers]
    exact hempty _
  · rw [hentries]
    exact nofun

omit [Std.TransCmp (Scalar.totalOrder : K → K → Ordering)] in
theorem new_agrees (selection : NodeSelection) :
    Agrees (new selection : Queue K) (OpenSet.new selection) used depths :=
  .of_empty rfl rfl rfl ⟨rfl, rfl, rfl⟩ rfl rfl rfl rfl

/-! ## Adding -/

theorem push_agrees (h : Agrees q s used depths) {bound estimate : K} {depth : Nat}
    (hid : ¬ used id) (hdepth : depth ∈ depths) :
    Agrees (q.push id bound estimate depth) (s.step (.push id bound estimate depth)).2
      (fun n => used n ∨ n = id) depths := by
  have hnew : id ∉ s.entries.map Prod.fst := by
    intro hmem
    obtain ⟨⟨i, e⟩, he, rfl⟩ := List.mem_map.mp hmem
    exact hid (h.keys.byBound.used _ (h.keys.byBound.mem ((h.entries.mem i e).mpr he)))
  refine { h with
    entries := ⟨fun i e => ?_, ?_⟩
    keys := ⟨h.keys.byBound.insert hid (fun _ _ => rfl) ⟨bound, estimate, depth⟩,
      h.keys.byDepth.insert hid (fun _ _ => rfl) ⟨bound, estimate, depth⟩,
      h.keys.byEstimate.insert hid (fun _ _ => rfl) ⟨bound, estimate, depth⟩⟩
    depths := fun e he => ?_ }
  · show (q.members.insert id _)[i]? = some e ↔ (i, e) ∈ s.entries ++ [(id, _)]
    rw [Std.TreeMap.getElem?_insert, List.mem_append, List.mem_singleton, ← h.entries.mem]
    by_cases hi : id = i
    · subst hi
      have hnone : q.members[id]? ≠ some e := fun he =>
        hnew (List.mem_map_of_mem (f := Prod.fst) ((h.entries.mem id e).mp he))
      rw [if_pos (Nat.compare_eq_eq.mpr rfl)]
      simp [hnone, eq_comm]
    · rw [if_neg fun heq => hi (Nat.compare_eq_eq.mp heq)]
      have hne : ¬ i = id := fun heq => hi heq.symm
      simp [hne]
  · show ((s.entries ++ [(id, _)]).map Prod.fst).Nodup
    rw [List.map_append, List.nodup_append]
    refine ⟨h.entries.nodup, List.nodup_singleton id, fun a ha b hb => ?_⟩
    rw [List.mem_singleton.mp hb]
    rintro rfl
    exact hnew ha
  · rcases List.mem_append.mp he with he | he
    · exact h.depths e he
    · rw [List.mem_singleton.mp he]
      exact hdepth

/-! ## Picking -/

/-- The queue behind a pick: the heaps hold the keys of the other open nodes, and only
the count of plunges may have changed besides. -/
structure Picked (q : Queue K) (used : NodeId → Prop) (id : NodeId) (plunges : Nat) (q' : Queue K) :
    Prop where
  selection : q'.selection = q.selection
  members : q'.members = q.members
  hasIncumbent : q'.hasIncumbent = q.hasIncumbent
  totalPopped : q'.totalPopped = q.totalPopped
  plungeDepth : q'.plungeDepth = plunges
  keys : q'.Keys (q.members.erase id) used

theorem popBound_picked (h : Agrees q s used depths) (hne : s.entries ≠ []) :
    ∃ id e q', q.popBound = (some id, q') ∧ least? OpenSet.byBound s.entries = some (id, e) ∧
      q.Picked used id q.plungeDepth q' := by
  obtain ⟨id, e, heap, hpop, hleast, ht⟩ := popOpen?_eq_least h.entries hne h.keys.byBound
    (fun a _ b _ => OpenSet.compare_boundKey a b) fun _ _ => OpenSet.byBound_eq
  refine ⟨id, e, { q with byBound := heap }, ?_, hleast, rfl, rfl, rfl, rfl, rfl,
    ht, (h.keys.erase id).byDepth, (h.keys.erase id).byEstimate⟩
  unfold popBound
  rw [hpop]

theorem popDepth_picked (h : Agrees q s used depths) (hdepths : DepthsExact K depths)
    (hne : s.entries ≠ []) :
    ∃ id e q', q.popDepth = (some id, q') ∧ least? OpenSet.byDepth s.entries = some (id, e) ∧
      q.Picked used id q.plungeDepth q' := by
  obtain ⟨id, e, heap, hpop, hleast, ht⟩ := popOpen?_eq_least h.entries hne h.keys.byDepth
    (fun a ha b hb => OpenSet.compare_depthKey hdepths (h.depths a ha) (h.depths b hb))
    fun _ _ heq => OpenSet.byBound_eq (Ordering.then_eq_eq.mp heq).2
  refine ⟨id, e, { q with byDepth := heap }, ?_, hleast, rfl, rfl, rfl, rfl, rfl,
    (h.keys.erase id).byBound, ht, (h.keys.erase id).byEstimate⟩
  unfold popDepth
  rw [hpop]

theorem popEstimate_picked (h : Agrees q s used depths) (hne : s.entries ≠ []) :
    ∃ id e q', q.popEstimate = (some id, q') ∧
      least? OpenSet.byEstimate s.entries = some (id, e) ∧ q.Picked used id q.plungeDepth q' := by
  have hkey : ∀ a ∈ s.entries, ∀ b ∈ s.entries, (OpenNode.estimateKey a.1 a.2).compare
      (OpenNode.estimateKey b.1 b.2) = OpenSet.byEstimate a b := fun _ _ _ _ => rfl
  obtain ⟨id, e, heap, hpop, hleast, ht⟩ := popOpen?_eq_least h.entries hne h.keys.byEstimate hkey
    fun _ _ heq => OpenSet.byBound_eq (Ordering.then_eq_eq.mp heq).2
  refine ⟨id, e, { q with byEstimate := heap }, ?_, hleast, rfl, rfl, rfl, rfl, rfl,
    (h.keys.erase id).byBound, (h.keys.erase id).byDepth, ht⟩
  unfold popEstimate
  rw [hpop]

/-- Children by bound, then by number. -/
def childOrder (a b : NodeId × K) : Ordering :=
  (Scalar.totalOrder a.2 b.2).then (compare a.1 b.1)

instance : Std.TransCmp (childOrder : NodeId × K → NodeId × K → Ordering) := by
  let _ : Ord K := ⟨Scalar.totalOrder⟩
  have : Std.TransOrd K := inferInstanceAs (Std.TransCmp (Scalar.totalOrder : K → K → Ordering))
  exact inferInstanceAs (Std.TransCmp (compareLex (compareOn fun c : NodeId × K => c.2)
    (compareOn Prod.fst)))

theorem betterChild_le (a b : NodeId × K) :
    (childOrder (betterChild a b) a).isLE = true ∧ (childOrder (betterChild a b) b).isLE = true := by
  have hdef : betterChild a b = if childOrder b a = .lt then b else a := by
    unfold betterChild childOrder
    cases (Scalar.totalOrder b.2 a.2).then (compare b.1 a.1) <;> rfl
  rw [hdef]
  split
  · next hba => exact ⟨by rw [hba]; rfl, Std.ReflCmp.isLE_rfl⟩
  · next hba => exact ⟨Std.ReflCmp.isLE_rfl, Std.OrientedCmp.isGE_iff_isLE.mp (Ordering.isGE_iff_ne_lt.mpr hba)⟩

theorem foldl_betterChild_le (cs : List (NodeId × K)) (c : NodeId × K) :
    ∀ x ∈ c :: cs, (childOrder (cs.foldl betterChild c) x).isLE = true := by
  induction cs generalizing c with
  | nil =>
    intro x hx
    rw [List.mem_singleton.mp hx]
    exact Std.ReflCmp.isLE_rfl
  | cons d cs ih =>
    intro x hx
    have hbest := ih (betterChild c d)
    have hhead := hbest _ List.mem_cons_self
    obtain ⟨hc, hd⟩ := betterChild_le c d
    rw [List.foldl_cons]
    rcases List.mem_cons.mp hx with rfl | hx
    · exact Std.TransCmp.isLE_trans hhead hc
    · rcases List.mem_cons.mp hx with rfl | hx
      · exact Std.TransCmp.isLE_trans hhead hd
      · exact hbest x (List.mem_cons_of_mem _ hx)

/-- The child that a plunge takes is the best of the open children. -/
theorem plungeChild?_eq (h : Agrees q s used depths) :
    q.plungeChild? = (least? OpenSet.byBound
      (s.entries.filter fun e => s.lastChildren.contains e.1)).map Prod.fst := by
  have hopened : ∀ c : NodeId × K,
      c ∈ (q.lastChildren.filterMap fun id => q.members[id]?.map fun e => (id, e.bound)) ↔
        ∃ e, (c.1, e) ∈ s.entries.filter (fun e => s.lastChildren.contains e.1) ∧ c.2 = e.bound := by
    rintro ⟨i, b⟩
    simp only [List.mem_filterMap, Option.map_eq_some_iff, List.mem_filter, List.contains_iff_mem,
      h.entries.mem, h.lastChildren, Prod.mk.injEq]
    constructor
    · rintro ⟨j, hj, e, he, rfl, rfl⟩
      exact ⟨e, ⟨he, hj⟩, rfl⟩
    · rintro ⟨e, ⟨he, hi⟩, rfl⟩
      exact ⟨i, hi, e, he, rfl, rfl⟩
  unfold plungeChild?
  dsimp only
  cases hlist : q.lastChildren.filterMap fun id => q.members[id]?.map fun e => (id, e.bound) with
  | nil =>
    rw [hlist] at hopened
    have hnone : s.entries.filter (fun e => s.lastChildren.contains e.1) = [] :=
      List.eq_nil_iff_forall_not_mem.mpr fun x hx =>
        List.not_mem_nil ((hopened (x.1, x.2.bound)).mpr ⟨x.2, hx, rfl⟩)
    rw [hnone]
    rfl
  | cons c cs =>
    rw [hlist] at hopened
    obtain ⟨e, he, hbound⟩ := (hopened _).mp (foldl_betterChild_mem cs c)
    rw [least?_eq_some (a := ((cs.foldl betterChild c).1, e)) he (fun x hx => ?_) fun x hx heq => ?_]
    · rfl
    · have hle := foldl_betterChild_le cs c (x.1, x.2.bound) ((hopened _).mpr ⟨x.2, hx, rfl⟩)
      unfold childOrder at hle
      rw [hbound] at hle
      exact hle
    · exact h.entries.eq (List.mem_filter.mp he).1 (List.mem_filter.mp hx).1 (OpenSet.byBound_eq heq)

/-- A pick by bound ends a plunge. -/
theorem popBound_reset (h : Agrees q s used depths) (hne : s.entries ≠ []) :
    ∃ id e q', ({ q with plungeDepth := 0 } : Queue K).popBound = (some id, q') ∧
      least? OpenSet.byBound s.entries = some (id, e) ∧ q.Picked used id 0 q' := by
  have hreset : Agrees { q with plungeDepth := 0 } { s with plunges := 0 } used depths :=
    { h with plunges := rfl, keys := ⟨h.keys.byBound, h.keys.byDepth, h.keys.byEstimate⟩ }
  obtain ⟨id, e, q', hpop, hleast, hp⟩ := popBound_picked hreset hne
  exact ⟨id, e, q', hpop, hleast, hp.selection, hp.members, hp.hasIncumbent, hp.totalPopped,
    hp.plungeDepth, hp.keys⟩

/-- **A pick finds the least open node in the order of the selection rule.** -/
theorem pick_picked (h : Agrees q s used depths) (hdepths : DepthsExact K depths)
    (hne : s.entries ≠ []) :
    ∃ id e q', q.pick = (some id, q') ∧ s.choice.1 = some (id, e) ∧
      q.Picked used id s.choice.2 q' := by
  obtain ⟨b, eb, qb, hb, hbest, hpb⟩ := popBound_picked h hne
  obtain ⟨d, ed, qd, hd, hdeepest, hpd⟩ := popDepth_picked h hdepths hne
  rw [← h.plunges] at hpb hpd
  unfold pick OpenSet.choice
  dsimp only
  rw [h.selection]
  cases hsel : q.selection with
  | bestBound => exact ⟨b, eb, qb, hb, hbest, hpb⟩
  | depthFirst => exact ⟨d, ed, qd, hd, hdeepest, hpd⟩
  | bestEstimate =>
    obtain ⟨e, ee, qe, he, hleast, hpe⟩ := popEstimate_picked h hne
    exact ⟨e, ee, qe, he, hleast, h.plunges ▸ hpe⟩
  | hybrid diveFreq =>
    dsimp only
    rw [h.picks]
    by_cases hdive : q.totalPopped % Nat.max diveFreq 1 = 0
    · rw [if_pos hdive, if_pos (Nat.dvd_of_mod_eq_zero hdive)]
      exact ⟨d, ed, qd, hd, hdeepest, hpd⟩
    · rw [if_neg hdive, if_neg fun hdvd => hdive (Nat.mod_eq_zero_of_dvd hdvd)]
      exact ⟨b, eb, qb, hb, hbest, hpb⟩
  | twoPhase =>
    dsimp only
    rw [h.hasIncumbent]
    cases q.hasIncumbent with
    | false => exact ⟨d, ed, qd, hd, hdeepest, hpd⟩
    | true => exact ⟨b, eb, qb, hb, hbest, hpb⟩
  | plunging maxDepth =>
    obtain ⟨r, er, qr, hr, hrbest, hpr⟩ := popBound_reset h hne
    have hplunge := plungeChild?_eq h
    dsimp only
    rw [← hsel]
    cases hchild : least? OpenSet.byBound
        (s.entries.filter fun e => s.lastChildren.contains e.1) with
    | none =>
      rw [hchild] at hplunge
      rw [hplunge]
      dsimp only [Option.map_none]
      exact ⟨r, er, qr, hr, hrbest, hpr⟩
    | some child =>
      rw [hchild] at hplunge
      rw [hplunge]
      dsimp only [Option.map_some]
      rw [h.plunges]
      by_cases hmore : q.plungeDepth < maxDepth
      · rw [if_pos hmore, if_pos hmore]
        have hkeys := h.keys.erase child.1
        exact ⟨child.1, child.2, { q with plungeDepth := q.plungeDepth + 1 }, rfl, rfl, rfl, rfl, rfl,
          rfl, rfl, hkeys.byBound, hkeys.byDepth, hkeys.byEstimate⟩
      · rw [if_neg hmore, if_neg hmore]
        exact ⟨r, er, qr, hr, hrbest, hpr⟩

/-- Taking the next node. -/
theorem pop_agrees (h : Agrees q s used depths) (hdepths : DepthsExact K depths) :
    q.pop.1 = s.pop.1 ∧ Agrees q.pop.2 s.pop.2 used depths := by
  unfold Queue.pop
  by_cases hempty : q.isEmpty = true
  · rw [if_pos hempty]
    have hnone := h.entries.isEmpty.mp hempty
    have hpop : s.pop = (none, s) := by
      have hchoice : s.choice.1 = none := by
        unfold OpenSet.choice
        rw [hnone]
        dsimp only [least?, List.filter_nil]
        split <;> (try split) <;> rfl
      unfold OpenSet.pop
      split
      · rfl
      · next heq =>
        rw [heq] at hchoice
        cases hchoice
    rw [hpop]
    exact ⟨rfl, h⟩
  · rw [if_neg hempty]
    obtain ⟨id, e, q', hpick, hchoice, hp⟩ := pick_picked h hdepths
      fun hnil => hempty (h.entries.isEmpty.mpr hnil)
    have hpop : s.pop = (some id, { s with
        entries := s.entries.filter fun e => e.1 != id
        lastChildren := []
        plunges := s.choice.2
        picks := s.picks + 1 }) := by
      unfold OpenSet.pop
      split
      · next heq =>
        rw [heq] at hchoice
        cases hchoice
      · next id' e' plunges heq =>
        rw [heq] at hchoice
        cases hchoice
        rw [heq]
    rw [hpick, hpop]
    refine ⟨rfl, Agrees.compact ?_⟩
    dsimp only
    rw [hp.members]
    exact
      { selection := h.selection.trans hp.selection.symm
        entries := h.entries.filter fun i x => by
          rw [Std.TreeMap.getElem?_erase]
          by_cases hi : id = i
          · simp [hi]
          · have hne : ¬ i = id := fun heq => hi heq.symm
            simp [hi, hne]
        lastChildren := rfl
        plunges := hp.plungeDepth.symm
        hasIncumbent := h.hasIncumbent.trans hp.hasIncumbent.symm
        picks := by rw [h.picks, hp.totalPopped]
        keys := ⟨hp.keys.byBound, hp.keys.byDepth, hp.keys.byEstimate⟩
        depths := fun x hx => h.depths x (List.mem_filter.mp hx).1 }

/-! ## Removing -/

omit [Scalar K] [Std.TransCmp (Scalar.totalOrder : K → K → Ordering)] in
/-- The members of a map that satisfy a condition are those of the set, by number. -/
theorem numbers_eq {m : Std.TreeMap NodeId (OpenNode K)} {entries : List (OpenEntry K)}
    (hm : SameEntries m entries) (p : OpenEntry K → Bool) :
    (m.toList.filter p).map Prod.fst = OpenSet.numbers (entries.filter p) := by
  have hmem : ∀ x : OpenEntry K, x ∈ m.toList ↔ x ∈ entries := fun x =>
    Std.TreeMap.mem_toList_iff_getElem?_eq_some.trans (hm.mem x.1 x.2)
  have hsorted : (m.toList.map Prod.fst).Pairwise fun a b => a < b := by
    rw [Std.TreeMap.map_fst_toList_eq_keys]
    exact Std.TreeMap.ordered_keys.imp fun h => Nat.compare_eq_lt.mp h
  have hsub : ((m.toList.filter p).map Prod.fst).Pairwise fun a b => a < b :=
    hsorted.sublist (List.filter_sublist.map _)
  have hperm : ((m.toList.filter p).map Prod.fst).Perm ((entries.filter p).map Prod.fst) := by
    refine (List.perm_ext_iff_of_nodup (hsub.imp Nat.ne_of_lt)
      (hm.nodup.sublist (List.filter_sublist.map _))).mpr fun id => ?_
    simp only [List.mem_map, List.mem_filter, hmem]
  have hnumbers : ∀ ids : List Nat, (ids.mergeSort fun a b => decide (a ≤ b)).Pairwise
      fun a b => decide (a ≤ b) = true :=
    List.pairwise_mergeSort (fun a b c => by simpa using Nat.le_trans)
      (fun a b => by simpa using Nat.le_total a b)
  exact List.Perm.eq_of_pairwise (fun a b _ _ => Nat.le_antisymm) (hsub.imp Nat.le_of_lt)
    ((hnumbers _).imp of_decide_eq_true) (hperm.trans (List.mergeSort_perm _ _).symm)

theorem prune_agrees (h : Agrees q s used depths) (prunable : K → Bool) :
    (q.prune prunable).1 = OpenSet.numbers (s.entries.filter fun e => prunable e.2.bound) ∧
      Agrees (q.prune prunable).2 { s with entries := s.entries.filter fun e => !prunable e.2.bound }
        used depths := by
  refine ⟨numbers_eq h.entries fun e => prunable e.2.bound, Agrees.compact ?_⟩
  have hgone := (prune_spec h.keys.wf prunable).1
  have hleft : ∀ (id : NodeId) (e : OpenNode K), ((q.prune prunable).1.foldl (fun m n => m.erase n) q.members)[id]? = some e ↔
      q.members[id]? = some e ∧ (!prunable e.bound) = true := by
    intro id e
    rw [getElem?_foldl_erase]
    split
    · next hmem =>
      obtain ⟨e', he', hp⟩ := (hgone id).mp hmem
      refine ⟨nofun, fun ⟨he, hnot⟩ => ?_⟩
      rw [he'] at he
      rw [← Option.some.inj he, hp] at hnot
      cases hnot
    · next hmem =>
      refine ⟨fun he => ⟨he, ?_⟩, And.left⟩
      cases hp : prunable e.bound with
      | false => rfl
      | true => exact (hmem ((hgone id).mpr ⟨e, he, hp⟩)).elim
  have hkeys := h.keys.mono fun id e he => ((hleft id e).mp he).1
  exact { h with
    entries := h.entries.filter hleft
    keys := ⟨hkeys.byBound, hkeys.byDepth, hkeys.byEstimate⟩
    depths := fun e he => h.depths e (List.mem_filter.mp he).1 }

omit [Std.TransCmp (Scalar.totalOrder : K → K → Ordering)] in
theorem drain_agrees (h : Agrees q s used depths) :
    q.drain.1 = OpenSet.numbers s.entries ∧
      Agrees q.drain.2 { s with entries := [], lastChildren := [] } used depths := by
  have hall := numbers_eq h.entries fun _ => true
  rw [List.filter_true, List.filter_true, Std.TreeMap.map_fst_toList_eq_keys] at hall
  exact ⟨hall, .of_empty h.selection rfl rfl ⟨rfl, rfl, rfl⟩ rfl h.plunges h.hasIncumbent h.picks⟩

theorem bestBound_agrees (h : Agrees q s used depths) :
    q.bestBound.1 = ((least? OpenSet.byBound s.entries).map fun e => e.2.bound).getD Scalar.inf ∧
      Agrees q.bestBound.2 s used depths := by
  unfold Queue.bestBound
  rcases firstOpen_eq_least h.entries h.keys.byBound (fun a _ b _ => OpenSet.compare_boundKey a b)
    fun _ _ => OpenSet.byBound_eq with ⟨id, e, h₀, h', hleast, -, -, hdrop, ht⟩ | ⟨hnil, h₀, hdrop, ht⟩
  · rw [hdrop, hleast]
    exact ⟨rfl, { h with keys := { h.keys with byBound := ht } }⟩
  · rw [hdrop, hnil]
    exact ⟨rfl, { h with keys := { h.keys with byBound := ht } }⟩

/-! ## Runs -/

omit [Std.TransCmp (Scalar.totalOrder : K → K → Ordering)] in
theorem Agrees.weaken {used' : NodeId → Prop} (h : Agrees q s used depths)
    (hused : ∀ id, used id → used' id) : Agrees q s used' depths :=
  { h with keys := ⟨h.keys.byBound.weaken hused, h.keys.byDepth.weaken hused,
      h.keys.byEstimate.weaken hused⟩ }

/-- **Every operation of the queue answers like the set, and leaves both in agreement.** -/
theorem step_agrees (h : Agrees q s used depths) (hdepths : DepthsExact K depths) (op : QueueOp K)
    (hfresh : ∀ id, op.added? = some id → ¬ used id)
    (hdepth : ∀ depth, op.depth? = some depth → depth ∈ depths) :
    (q.step op).1 = (s.step op).1 ∧
      Agrees (q.step op).2 (s.step op).2 (fun id => used id ∨ op.added? = some id) depths := by
  cases op with
  | push id bound estimate depth =>
    exact ⟨rfl, (push_agrees h (hfresh id rfl) (hdepth depth rfl)).weaken
      fun n => Or.imp_right fun heq => congrArg some heq.symm⟩
  | setLastChildren children =>
    exact ⟨rfl, Agrees.weaken { h with
      lastChildren := rfl
      keys := ⟨h.keys.byBound, h.keys.byDepth, h.keys.byEstimate⟩ } fun _ => .inl⟩
  | setHasIncumbent has =>
    exact ⟨rfl, Agrees.weaken { h with
      hasIncumbent := rfl
      keys := ⟨h.keys.byBound, h.keys.byDepth, h.keys.byEstimate⟩ } fun _ => .inl⟩
  | pop =>
    obtain ⟨hanswer, hnext⟩ := pop_agrees h hdepths
    exact ⟨congrArg QueueAnswer.picked hanswer, hnext.weaken fun _ => .inl⟩
  | prune prunable =>
    obtain ⟨hanswer, hnext⟩ := prune_agrees h prunable
    exact ⟨congrArg QueueAnswer.removed hanswer, hnext.weaken fun _ => .inl⟩
  | drain =>
    obtain ⟨hanswer, hnext⟩ := drain_agrees h
    exact ⟨congrArg QueueAnswer.removed hanswer, hnext.weaken fun _ => .inl⟩
  | bestBound =>
    obtain ⟨hanswer, hnext⟩ := bestBound_agrees h
    exact ⟨congrArg QueueAnswer.bound hanswer, hnext.weaken fun _ => .inl⟩

/-- Answers of a queue and a set that agree. -/
theorem answers_eq (h : Agrees q s used depths) (hdepths : DepthsExact K depths)
    (ops : List (QueueOp K)) (hnodup : (ops.filterMap QueueOp.added?).Nodup)
    (hfresh : ∀ id ∈ ops.filterMap QueueOp.added?, ¬ used id)
    (hdepth : ∀ depth ∈ ops.filterMap QueueOp.depth?, depth ∈ depths) :
    QueueOp.answers step q ops = QueueOp.answers OpenSet.step s ops := by
  induction ops generalizing q s used with
  | nil => rfl
  | cons op ops ih =>
    have hdepth' : ∀ {op' depth}, op' ∈ op :: ops → op'.depth? = some depth → depth ∈ depths :=
      fun hop hd => hdepth _ (List.mem_filterMap.mpr ⟨_, hop, hd⟩)
    obtain ⟨hnew, hnodup, hrest⟩ := QueueOp.fresh_cons hnodup hfresh
    obtain ⟨hanswer, hnext⟩ := step_agrees h hdepths op hnew fun _ => hdepth' List.mem_cons_self
    unfold QueueOp.answers
    rw [hanswer, ih hnext hnodup hrest fun depth hd => ?_]
    obtain ⟨op', hop, hd⟩ := List.mem_filterMap.mp hd
    exact hdepth' (List.mem_cons_of_mem _ hop) hd

/-- **The queue refines a plain set.** Whatever the selection rule and the operations, as
long as no number is pushed twice and depths keep their order as numbers. -/
theorem answers_eq_openSet (selection : NodeSelection) (ops : List (QueueOp K))
    (hnodup : (ops.filterMap QueueOp.added?).Nodup)
    (hdepths : DepthsExact K (ops.filterMap QueueOp.depth?)) :
    QueueOp.answers step (new selection) ops = QueueOp.answers OpenSet.step (.new selection) ops :=
  have hnew : Agrees (new selection : Queue K) (.new selection) (fun _ => False) _ := new_agrees selection
  answers_eq hnew hdepths ops hnodup (fun _ _ => id) fun _ => id

/-- Two children of node 0 are plunged into, one of them is pruned, and the other branch
is taken by bound. -/
def plungeOps : List (QueueOp Float) :=
  [.push 0 1.0 2.0 0, .pop, .push 1 4.0 5.0 1, .push 2 3.0 3.0 1, .push 3 2.0 9.0 1,
    .setLastChildren [1, 2], .pop, .bestBound, .prune fun b => decide (3.5 < b), .pop, .pop, .drain]

theorem answers_eq_openSet_plunging :
    (plungeOps.filterMap QueueOp.added?).Nodup ∧
      DepthsExact Float (plungeOps.filterMap QueueOp.depth?) ∧
      QueueOp.answers step (new (.plunging 1)) plungeOps =
        QueueOp.answers OpenSet.step (.new (.plunging 1)) plungeOps :=
  have hnodup : (plungeOps.filterMap QueueOp.added?).Nodup := by decide
  have hdepths : DepthsExact Float (plungeOps.filterMap QueueOp.depth?) := by decide +kernel
  ⟨hnodup, hdepths, answers_eq_openSet (.plunging 1) plungeOps hnodup hdepths⟩

example : QueueOp.answers step (new (.plunging 1)) plungeOps =
    [.done, .picked (some 0), .done, .done, .done, .done, .picked (some 2), .bound 2.0,
      .removed [1], .picked (some 3), .picked none, .removed []] := by decide +kernel

/-- A frequency of zero counts as one: the second pick dives to node 1 although one pick
is no multiple of zero and node 2 has the lower bound. Depths are ordered as numbers:
two that round to the same one are told apart by their bounds. -/
theorem answers_beyond_limits :
    (QueueOp.answers step (new (.hybrid 0) : Queue Float)
        [.push 0 9.0 0.0 2, .push 1 9.0 0.0 1, .push 2 0.0 0.0 0, .pop, .pop] =
      [.done, .done, .done, .picked (some 0), .picked (some 1)] ∧
      ¬ 0 ∣ 1 ∧
      (least? OpenSet.byBound [((1, ⟨9.0, 0.0, 1⟩) : OpenEntry Float), (2, ⟨0.0, 0.0, 0⟩)]).map Prod.fst =
        some 2) ∧
    QueueOp.answers step (new .depthFirst : Queue Float)
        [.push 1 0.0 0.0 9007199254740992, .push 2 5.0 0.0 9007199254740993, .pop] =
      [.done, .done, .picked (some 1)] ∧
      (least? OpenSet.byDepth [((1, ⟨0.0, 0.0, 9007199254740992⟩) : OpenEntry Float),
        (2, ⟨5.0, 0.0, 9007199254740993⟩)]).map Prod.fst = some 2 := by
  decide +kernel

end Queue

end BranchAndCut

import BranchAndCut.Proofs.Domain.Excursion

/-! # The answer to a move

A move enters the nodes that the two paths do not share, and answers whether
their changes were in conflict with the bounds. A node that was entered without
a conflict has the level that a single move from the root would have given it,
whatever was visited in between, so that the answer is the one that this single
move would have given. The exception are nodes that stay on the path although
their replay was cut short: they are not replayed again, and a move that does not
leave them misses their conflict. -/

namespace BranchAndCut.Domains

variable {K : Type} [Scalar K] {d e : Domains K} {delta delta' : NodeId → List (BoundChange K)} {root n : NodeId}
  {above head target : List NodeId}

/-! ## Moves from one store -/

variable (delta) in
/-- The nodes that a longer path adds are entered after the others. -/
theorem restore_append {tail : List NodeId} (h : commonLength d.path (head ++ tail) ≤ head.length) :
    d.restore (head ++ tail) delta = ((tail.foldl (enter delta) (d.restore head delta)).1,
      (tail.foldl (enter delta) (d.restore head delta)).2.clearPending) := by
  have hcommon := commonLength_take d.path (head ++ tail) head.length
  rw [List.take_left, Nat.min_eq_right h] at hcommon
  unfold Domains.restore
  rw [hcommon]
  simp only []
  rw [List.drop_append_of_le_length h, List.foldl_append]
  generalize (head.drop (commonLength d.path (head ++ tail))).foldl (enter delta)
    (true, d.leaveTo (commonLength d.path (head ++ tail))) = entered
  obtain ⟨hanswer, hstore⟩ := (agree_clearPending entered.2).foldl_enter delta entered.1 tail
  exact Prod.ext hanswer.symm hstore.symm

omit [Scalar K] in
theorem commonLength_le_of_isPrefix (h : d.path <+: head) (tail : List NodeId) :
    commonLength d.path (head ++ tail) ≤ head.length := by
  rw [commonLength_of_isPrefix (h.trans (List.prefix_append head tail))]
  exact h.length_le

/-- A path without conflicts has none in its beginnings. -/
theorem restore_feasible (h : d.path <+: head) (htarget : head <+: target) (hok : (d.restore target delta).1 = true) :
    (d.restore head delta).1 = true := by
  obtain ⟨tail, rfl⟩ := htarget
  rw [restore_append delta (commonLength_le_of_isPrefix h tail)] at hok
  exact foldl_enter_feasible hok

/-- Only the changes of the nodes of the path matter. -/
theorem restore_congr (h : ∀ n ∈ target, delta' n = delta n) : d.restore target delta' = d.restore target delta := by
  have henter : ∀ acc : Bool × Domains K, ∀ n ∈ target.drop (commonLength d.path target),
      enter delta' acc n = enter delta acc n := by
    intro acc n hn
    unfold enter
    rw [h n (List.mem_of_mem_drop hn)]
  unfold Domains.restore
  simp only [List.foldl_ext _ _ _ henter]

theorem restore_nil (d : Domains K) : (d.restore [] delta).1 = true := by
  simp [Domains.restore]

variable (d delta) in
/-- **A beginning of the path** has the level that a move there comes to. -/
theorem leaveTo_restore_isPrefix (hne : head ≠ []) (h : head <+: target) :
    Agree ((d.restore target delta).2.leaveTo head.length) (d.restore head delta).2 := by
  have hpos := List.length_pos_of_ne_nil hne
  obtain ⟨tail, rfl⟩ := h
  by_cases hle : head.length ≤ commonLength d.path (head ++ tail)
  · rw [restore_of_isPrefix (isPrefix_of_le_commonLength (List.prefix_append head tail) hle)]
    exact (leaveTo_restore delta hpos hle).trans (agree_clearPending _).symm
  · have hentered : (d.restore head delta).2.frames.length = head.length := by
      rw [← length_path, restore_path]
    have hself := leaveTo_length (List.ne_nil_of_length_pos (hentered ▸ hpos))
    rw [hentered] at hself
    have hlonger := leaveTo_foldl_enter delta hpos (d.restore head delta) (Nat.le_of_eq hentered.symm) tail
    rw [hself] at hlonger
    rw [restore_append delta (by omega)]
    exact ((agree_clearPending _).leaveTo head.length).trans hlonger

/-! ## Moves after other moves -/

/-- Where a single move from the first store meets no conflict, the second one has the level
that this move comes to. -/
structure Traced (root : NodeId) (delta : NodeId → List (BoundChange K)) (d e : Domains K) : Prop where
  entered : e.path.head? = some root
  level : ∀ {head}, head ≠ [] → head <+: e.path → (d.restore head delta).1 = true →
    Agree (e.leaveTo head.length) (d.restore head delta).2

omit [Scalar K] in
/-- A path that begins at the root goes on from a store that is off the path or at the root. -/
theorem path_isPrefix_of_root (hd : d.path <+: [root]) (hroot : head.head? = some root) : d.path <+: head := by
  cases head with
  | nil => simp at hroot
  | cons n head =>
    simp only [List.head?_cons, Option.some.injEq] at hroot
    subst hroot
    exact hd.trans (List.prefix_append [n] head)

omit [Scalar K] in
theorem frames_ne_nil (hroot : d.path.head? = some root) : d.frames ≠ [] := by
  intro hnil
  simp [path, hnil] at hroot

omit [Scalar K] in
/-- The nodes that two paths from the root share begin at the root. -/
theorem head?_shared (he : e.path.head? = some root) (htarget : target.head? = some root) :
    (target.take (commonLength e.path target)).head? = some root := by
  rwa [List.head?_take, if_neg (Nat.ne_of_gt (commonLength_pos he htarget))]

theorem traced_restore (htarget : target.head? = some root) : Traced root delta d (d.restore target delta).2 where
  entered := by rw [restore_path]; exact htarget
  level hne hhead _ := by
    rw [restore_path] at hhead
    exact leaveTo_restore_isPrefix d delta hne hhead

/-- **A move that shares no conflict** is as good as a single move. -/
theorem Traced.restore_eq (h : Traced root delta d e) (hd : d.path <+: [root]) (htarget : target.head? = some root)
    (hok : (d.restore (target.take (commonLength e.path target)) delta).1 = true) :
    e.restore target delta = d.restore target delta := by
  have hpos := commonLength_pos h.entered htarget
  have hlength : (target.take (commonLength e.path target)).length = commonLength e.path target := by
    rw [← take_commonLength, List.length_take, Nat.min_eq_left (commonLength_le _ _)]
  have hne : target.take (commonLength e.path target) ≠ [] := List.ne_nil_of_length_pos (by omega)
  have hshared : target.take (commonLength e.path target) <+: e.path := by
    rw [← take_commonLength]
    exact List.take_prefix _ _
  have hstart : d.path <+: target.take (commonLength e.path target) := by
    exact path_isPrefix_of_root hd (head?_shared h.entered htarget)
  have hlevel := h.level hne hshared hok
  rw [hlength] at hlevel
  obtain ⟨hanswer, hstore⟩ := hlevel.foldl_enter delta true (target.drop (commonLength e.path target))
  have happend := restore_append delta (commonLength_le_of_isPrefix hstart (target.drop (commonLength e.path target)))
  rw [List.take_append_drop, ← Prod.mk.eta (p := d.restore (target.take _) delta), hok] at happend
  rw [happend]
  exact Prod.ext hanswer hstore

/-- **A move** keeps what is traced, whatever it answers. -/
theorem Traced.restore (h : Traced root delta d e) (hd : d.path <+: [root]) (htarget : target.head? = some root) :
    Traced root delta d (e.restore target delta).2 where
  entered := by rw [restore_path]; exact htarget
  level {head} hne hhead hok := by
    rw [restore_path] at hhead
    have hroot : head.head? = some root := by
      obtain ⟨tail, rfl⟩ := hhead
      rwa [List.head?_append_of_ne_nil _ hne] at htarget
    have hshared : (d.restore (head.take (commonLength e.path head)) delta).1 = true := by
      exact restore_feasible (path_isPrefix_of_root hd (head?_shared h.entered hroot)) (List.take_prefix _ _) hok
    have hlevel := leaveTo_restore_isPrefix e delta hne hhead
    rwa [h.restore_eq hd hroot hshared] at hlevel

/-- Stores reached by moves along paths that begin at one root. -/
inductive Visited (root : NodeId) (delta : NodeId → List (BoundChange K)) (d : Domains K) : Domains K → Prop
  | start : Visited root delta d d
  | restore {e : Domains K} (h : Visited root delta d e) {target : List NodeId} (htarget : target.head? = some root) :
      Visited root delta d (e.restore target delta).2

theorem Visited.traced (h : Visited root delta d e) (hd : d.path <+: [root]) : e = d ∨ Traced root delta d e := by
  induction h with
  | start => exact .inl rfl
  | restore _ htarget ih =>
    right
    rcases ih with rfl | htraced
    · exact traced_restore htarget
    · exact htraced.restore hd htarget

theorem Visited.trans {e' : Domains K} (h : Visited root delta d e) (h' : Visited root delta e e') :
    Visited root delta d e' := by
  induction h' with
  | start => exact h
  | restore _ htarget ih => exact ih.restore htarget

/-- **A move that meets no conflict from the first store** comes to the same store from wherever
the others have led. -/
theorem Visited.restore_eq (h : Visited root delta d e) (hd : d.path <+: [root]) (htarget : target.head? = some root)
    (hok : (d.restore target delta).1 = true) : e.restore target delta = d.restore target delta := by
  rcases h.traced hd with rfl | htraced
  · rfl
  · have hroot := head?_shared htraced.entered htarget
    exact htraced.restore_eq hd htarget (restore_feasible (path_isPrefix_of_root hd hroot) (List.take_prefix _ _) hok)

/-! ## Conflicts -/

/-- After the nodes `above`, which can be entered, the changes of the node are in conflict with
the bounds. -/
def ConflictsAt (d : Domains K) (delta : NodeId → List (BoundChange K)) (above : List NodeId) (n : NodeId) : Prop :=
  (d.restore above delta).1 = true ∧ (d.restore (above ++ [n]) delta).1 = false

/-- A path that cannot be entered has a node where the conflict is. -/
theorem exists_conflict (hfail : (d.restore target delta).1 = false) :
    ∃ above n, above ++ [n] <+: target ∧ d.ConflictsAt delta above n := by
  induction target using List.reverseRecOn with
  | nil =>
    rw [restore_nil] at hfail
    cases hfail
  | append_singleton above n ih =>
    cases hanswer : (d.restore above delta).1 with
    | true => exact ⟨above, n, List.prefix_refl _, hanswer, hfail⟩
    | false =>
      obtain ⟨above', n', hbegins, hconflict⟩ := ih hanswer
      exact ⟨above', n', hbegins.trans (List.prefix_append _ _), hconflict⟩

/-- Beyond a conflict no path can be entered. -/
theorem ConflictsAt.fails (h : d.ConflictsAt delta above n) (hd : d.path <+: above ++ [n])
    (htarget : above ++ [n] <+: target) : (d.restore target delta).1 = false := by
  by_contra hanswer
  rw [Bool.not_eq_false] at hanswer
  have hok := restore_feasible hd htarget hanswer
  rw [h.2] at hok
  cases hok

/-- A beginning of a path that begins at the root does so as well. -/
theorem head?_of_isPrefix (hne : head ≠ []) (h : head <+: target) (htarget : target.head? = some root) :
    head.head? = some root := by
  obtain ⟨tail, rfl⟩ := h
  rwa [List.head?_append_of_ne_nil _ hne] at htarget

/-- Where the store has left the node of a conflict, or never entered it, the conflict is found. -/
theorem Traced.conflict (h : Traced root delta d e) (hd : d.path <+: [root]) (htarget : target.head? = some root)
    (hconflict : d.ConflictsAt delta above n) (hbegins : above ++ [n] <+: target) (hleft : ¬ above ++ [n] <+: e.path) :
    (e.restore target delta).1 = false := by
  have hstart : d.path <+: above ++ [n] := path_isPrefix_of_root hd (head?_of_isPrefix (by simp) hbegins htarget)
  have hpos := commonLength_pos h.entered htarget
  have hshort : commonLength e.path target ≤ above.length := by
    by_contra hlong
    exact hleft (isPrefix_of_le_commonLength hbegins (by simp; omega))
  have hshared : target.take (commonLength e.path target) <+: above :=
    List.prefix_of_prefix_length_le (List.take_prefix _ _) ((List.prefix_append above [n]).trans hbegins)
      (by rw [List.length_take]; omega)
  have hroot := head?_shared h.entered htarget
  have hok := restore_feasible (path_isPrefix_of_root hd hroot) hshared hconflict.1
  rw [h.restore_eq hd htarget hok]
  exact hconflict.fails hstart hbegins

/-- **The answer of a move** depends on the bounds of the store in which the root was entered and
on the changes of the nodes of the path, and not on the moves before. Without a conflict it is
that the path can be entered. A conflict is found, unless the node where it is has not been left
since a move before met the conflict there. -/
theorem restore_answers (hd : d.path <+: [root]) (he : Visited root delta d e) (htarget : target.head? = some root)
    (hsame : ∀ n ∈ target, delta' n = delta n) :
    ((d.restore target delta').1 = true → (e.restore target delta).1 = true) ∧
      ((d.restore target delta').1 = false → ∃ above n, above ++ [n] <+: target ∧ d.ConflictsAt delta' above n) ∧
      ∀ above n, above ++ [n] <+: target → d.ConflictsAt delta' above n → ¬ above ++ [n] <+: e.path →
        (e.restore target delta).1 = false := by
  refine ⟨?_, exists_conflict, ?_⟩
  · intro hok
    rw [restore_congr hsame] at hok
    rwa [he.restore_eq hd htarget hok]
  · intro above n hbegins hconflict hleft
    have hconflict : d.ConflictsAt delta above n := by
      have habove : ∀ m ∈ above ++ [n], delta' m = delta m := fun m hm => hsame m (hbegins.subset hm)
      unfold ConflictsAt at hconflict ⊢
      rwa [restore_congr habove, restore_congr fun m hm => habove m (List.mem_append_left _ hm)] at hconflict
    rcases he.traced hd with rfl | htraced
    · exact hconflict.fails (path_isPrefix_of_root hd (head?_of_isPrefix (by simp) hbegins htarget)) hbegins
    · exact htraced.conflict hd htarget hconflict hbegins hleft

/-- The first child of the root needs more room than is left once a bound is set at the root. -/
def conflicting : NodeId → List (BoundChange (Exact ℚ))
  | 1 => [.lower 0 (.fin 0) (.fin 1), .lower 0 (.fin 1) (.fin 5)]
  | 2 => [.upper 0 (.fin 3) (.fin 2)]
  | _ => []

/-- A store at the root, where that bound is set. -/
def atConflict : Domains (Exact ℚ) :=
  (((new #[.fin 0] #[.fin 10] #[true] (.fin (1 / 1000))).restore [0] conflicting).2.tighten 0 .upper (.fin 3)
    .formulation).2

/-- The first child is left for the second one and visited again. -/
theorem restore_answers_conflicting :
    let e := ((atConflict.restore [0, 1, 3] conflicting).2.restore [0, 2] conflicting).2
    atConflict.path <+: [0] ∧ Visited 0 conflicting atConflict e ∧ atConflict.ConflictsAt conflicting [0] 1 ∧
      (e.restore [0, 1, 4] conflicting).1 = false := by
  intro e
  have hpath : atConflict.path <+: [0] := by decide +kernel
  have hvisited : Visited 0 conflicting atConflict e := .restore (.restore .start rfl) rfl
  have hconflict : atConflict.ConflictsAt conflicting [0] 1 := by
    constructor <;> decide +kernel
  have hleft : ¬ [0] ++ [1] <+: e.path := by
    rw [show e.path = [0, 2] from restore_path ..]
    decide
  have hroot : [0, 1, 4].head? = some 0 := rfl
  obtain ⟨-, -, hanswer⟩ := restore_answers hpath hvisited hroot fun _ _ => rfl
  exact ⟨hpath, hvisited, hconflict, hanswer [0] 1 (by decide) hconflict hleft⟩

/-- A move to the path of the conflict, or through it, that follows at once does not find the
conflict again. -/
theorem restore_forgets_conflict :
    let stopped := atConflict.restore [0, 1] conflicting
    stopped.1 = false ∧ (stopped.2.restore [0, 1] conflicting).1 = true ∧
      (stopped.2.restore [0, 1, 3] conflicting).1 = true := by
  decide +kernel

end BranchAndCut.Domains

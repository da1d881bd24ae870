import BranchAndCut.Proofs.Domain.Following
import BranchAndCut.Proofs.Domain.Replay

/-! # Stores from which nodes can be entered

The store at each level of the active path is one from which the nodes below can be entered
one after another, each by a replay of its changes. Where a level was reached by propagation,
a later replay from a level below comes to the same store, apart from variables that have
collapsed; so what was possible at the level itself is possible after the replay as well. -/

namespace BranchAndCut.Domains

variable [Rooted ℚ] {t : Exact ℚ} {Z : VarId → Prop} {S D X d e : Domains (Exact ℚ)}

/-! ## Paths of nodes -/

/-- Each node of a list can be entered, in its turn, by a replay of its changes. -/
def Replays (delta : NodeId → List (BoundChange (Exact ℚ))) : Domains (Exact ℚ) → List NodeId → Prop
  | _, [] => True
  | d, n :: ns => (d.push n).Calm (delta n) ∧ Replays delta ((d.push n).replay (delta n)).2 ns

/-- The store after a list of nodes was entered. -/
def descend (delta : NodeId → List (BoundChange (Exact ℚ))) : Domains (Exact ℚ) → List NodeId → Domains (Exact ℚ)
  | d, [] => d
  | d, n :: ns => descend delta ((d.push n).replay (delta n)).2 ns

variable {delta delta' : NodeId → List (BoundChange (Exact ℚ))} {ms ns : List NodeId}

theorem descend_append (D : Domains (Exact ℚ)) (ms ns : List NodeId) :
    descend delta D (ms ++ ns) = descend delta (descend delta D ms) ns := by
  induction ms generalizing D with
  | nil => rfl
  | cons m ms ih => exact ih _

theorem replays_append : Replays delta D (ms ++ ns) ↔ Replays delta D ms ∧ Replays delta (descend delta D ms) ns := by
  induction ms generalizing D with
  | nil => exact (and_iff_right trivial).symm
  | cons m ms ih => exact (and_congr_right fun _ => ih).trans and_assoc.symm

/-- Only the changes of the nodes entered matter. -/
theorem descend_congr (h : ∀ n ∈ ns, delta' n = delta n) :
    (Replays delta' D ns ↔ Replays delta D ns) ∧ descend delta' D ns = descend delta D ns := by
  induction ns generalizing D with
  | nil => exact ⟨Iff.rfl, rfl⟩
  | cons n ns ih =>
    have hn := h n List.mem_cons_self
    obtain ⟨hreplays, hdescend⟩ := ih (D := ((D.push n).replay (delta n)).2) fun m hm => h m (List.mem_cons_of_mem _ hm)
    refine ⟨?_, ?_⟩
    · unfold Replays
      rw [hn]
      exact and_congr_right fun _ => hreplays
    · unfold descend
      rw [hn]
      exact hdescend

variable (hpos : 0 < t) (hhalf : t < 0.5)

theorem Agree.descend (h : Agree D X) (ns : List NodeId) : Agree (descend delta D ns) (descend delta X ns) := by
  induction ns generalizing D X with
  | nil => exact h
  | cons n ns ih =>
    have hpush : Agree (D.push n) (X.push n) := by
      rw [h.eq_with]
      rfl
    exact ih (hpush.replay (delta n)).2

include hpos hhalf

theorem Sound.descend (h : Sound t Z D) (ns : List NodeId) : Sound t Z (descend delta D ns) := by
  induction ns generalizing D with
  | nil => exact h
  | cons n ns ih => exact ih ((h.push n).replay hpos hhalf _)

omit hpos hhalf in
theorem Collapses.push (h : Collapses S D) (node : NodeId) : Collapses (S.push node) (D.push node) := by
  refine ⟨?_, fun v => (h.at_var v).imp id fun hat => ⟨hat.continuous, hat.point, hat.spans.between, hat.spans.whole⟩⟩
  have hshape := h.shape
  unfold Domains.shape at hshape ⊢
  simp only [Domains.push, List.map_cons, Shape.mk.injEq] at hshape ⊢
  simp [hshape]

/-- **What can be replayed where variables have collapsed** can be replayed where they have not. -/
theorem Collapses.descend (h : Collapses S D) (hS : Sound t Z S) (hD : Sound t Z D) (hns : Replays delta S ns) :
    Replays delta D ns ∧ Collapses (descend delta S ns) (descend delta D ns) := by
  induction ns generalizing S D with
  | nil => exact ⟨trivial, h⟩
  | cons n ns ih =>
    obtain ⟨hcalm, hcollapses⟩ := (h.push n).replay hpos hhalf (hS.push n) (hD.push n) hns.1
    obtain ⟨hreplays, hrest⟩ := ih hcollapses ((hS.push n).replay hpos hhalf _) ((hD.push n).replay hpos hhalf _) hns.2
    exact ⟨⟨hcalm, hreplays⟩, hrest⟩


/-! ## Levels -/

/-- The nodes below can be entered one after another, and each leads to a store with the
property. A replay from the level before comes to this store. -/
structure Passable (paths : List NodeId → Prop) (delta : NodeId → List (BoundChange (Exact ℚ))) (t : Exact ℚ)
    (Z : VarId → Prop) (Q : Domains (Exact ℚ) → Prop) (d : Domains (Exact ℚ)) : Prop where
  sound : Sound t Z d
  ahead : ∀ ms, paths (d.path ++ ms) → Replays delta d ms ∧ Q (descend delta d ms)
  linked : ∀ f fs, d.frames = f :: fs → fs ≠ [] → paths d.path → Collapses d (descend delta d.leave [f.node])

variable {paths paths' : List NodeId → Prop} {Q : Domains (Exact ℚ) → Prop}

omit [Rooted ℚ] hpos hhalf in
theorem path_congr (h : e.frames.map Frame.node = d.frames.map Frame.node) : e.path = d.path := congrArg List.reverse h

omit [Rooted ℚ] hpos hhalf in
theorem path_of_frames {f : Frame (Exact ℚ)} {fs : List (Frame (Exact ℚ))} (h : d.frames = f :: fs) :
    d.path = d.leave.path ++ [f.node] := by
  simp [path, leave_frames, h]

omit hpos hhalf in
/-- Fewer paths, with the same changes. -/
theorem levels_fewer (h : Levels (Passable paths delta t Z Q) d)
    (hpaths : ∀ ns, paths' ns → paths ns ∧ ∀ n ∈ ns, delta' n = delta n) : Levels (Passable paths' delta' t Z Q) d := by
  intro k hk
  have hlevel := h k hk
  refine ⟨hlevel.sound, fun ms hms => ?_, fun f fs hframes hne hpath => ?_⟩
  · obtain ⟨hold, hsame⟩ := hpaths _ hms
    obtain ⟨hreplays, hdescend⟩ := descend_congr (D := k.repeat leave d) fun n hn => hsame n (List.mem_append_right _ hn)
    rw [hreplays, hdescend]
    exact hlevel.ahead ms hold
  · obtain ⟨hold, hsame⟩ := hpaths _ hpath
    have hmem : f.node ∈ (k.repeat leave d).path := by
      rw [path_of_frames hframes]
      exact List.mem_append_right _ List.mem_cons_self
    rw [(descend_congr fun n hn => hsame n (List.mem_singleton.mp hn ▸ hmem)).2]
    exact hlevel.linked f fs hframes hne hold

variable (hQ : ∀ {S D}, Collapses S D → Q S → Q D)

include hQ

theorem Passable.agree (h : Passable paths delta t Z Q d) (hde : Agree d e) : Passable paths delta t Z Q e := by
  have hsound := h.sound.agree hde
  have hpath := hde.path
  refine ⟨hsound, fun ms hms => ?_, fun f fs hframes hne hp => ?_⟩
  · rw [hpath] at hms
    obtain ⟨hreplays, hq⟩ := h.ahead ms hms
    obtain ⟨hreplays', hcollapses⟩ := (Collapses.of_agree hde).descend hpos hhalf h.sound hsound hreplays
    exact ⟨hreplays', hQ hcollapses hq⟩
  · rw [← hde.frames] at hframes
    rw [hpath] at hp
    have hbelow : Agree (Domains.descend delta d.leave [f.node]) (Domains.descend delta e.leave [f.node]) :=
      hde.leave.descend _
    exact (Collapses.of_agree hde.symm).trans ((h.linked f fs hframes hne hp).trans (.of_agree hbelow))

/-- Whoever ends a path of nodes has all its beginnings as paths too. -/
def Closed (paths : List NodeId → Prop) : Prop := ∀ above below, paths (above ++ below) → above ≠ [] → paths above

omit [Rooted ℚ] hpos hhalf hQ in
theorem path_ne_nil (h : d.frames ≠ []) : d.path ≠ [] := by simpa [path] using h

omit hQ in
/-- **From a lower level** a replay comes to the store, apart from variables that have collapsed. -/
theorem levels_chain (h : Levels (Passable paths delta t Z Q) d) (hclosed : Closed paths) (hd : paths d.path) {k : Nat}
    (hk : k ≤ d.frames.length - 1) : ∃ ms, (k.repeat leave d).path ++ ms = d.path ∧
      Replays delta (k.repeat leave d) ms ∧ Collapses d (descend delta (k.repeat leave d) ms) := by
  induction k with
  | zero => exact ⟨[], List.append_nil _, trivial, .refl d⟩
  | succ k ih =>
    obtain ⟨ms, hpath, hreplays, hcollapses⟩ := ih (by omega)
    have hlength := congrArg List.length (repeat_leave_frames k d)
    rw [List.length_drop] at hlength
    cases hframes : (k.repeat leave d).frames with
    | nil =>
      rw [hframes, List.length_nil] at hlength
      omega
    | cons f fs =>
      have hne : fs ≠ [] := by
        rintro rfl
        rw [hframes, List.length_singleton] at hlength
        omega
      have hlevel := path_of_frames hframes
      have hwhole : (k.repeat leave d).leave.path ++ f.node :: ms = d.path := by
        rw [← hpath, hlevel, List.append_assoc, List.singleton_append]
      have hlinked := (h k (by omega)).linked f fs hframes hne
        (hclosed _ ms (hpath ▸ hd) (path_ne_nil (by rw [hframes]; exact List.cons_ne_nil _ _)))
      obtain ⟨hreplays', hsame⟩ := hlinked.descend hpos hhalf (h k (by omega)).sound
        ((h (k + 1) hk).sound.descend hpos hhalf _) hreplays
      exact ⟨f.node :: ms, hwhole, ((h (k + 1) hk).ahead _ (hwhole ▸ hd)).1, hcollapses.trans hsame⟩

/-! ## Moving to another node -/

/-- **Entering the nodes of a path** succeeds. -/
theorem levels_enter_path {ns : List NodeId} (h : Levels (Passable paths delta t Z Q) d)
    (hns : paths (d.path ++ ns)) : (ns.foldl (enter delta) (true, d)).1 = true ∧
      Levels (Passable paths delta t Z Q) (ns.foldl (enter delta) (true, d)).2 := by
  induction ns generalizing d with
  | nil => exact ⟨rfl, h⟩
  | cons n ns ih =>
    have hd := h.top
    obtain ⟨hcalm, -⟩ := (hd.ahead _ hns).1
    have hfeasible := (hd.sound.push n).replay_feasible hpos hhalf hcalm
    have henter : enter delta (true, d) n = (true, ((d.push n).replay (delta n)).2) := Prod.ext hfeasible rfl
    generalize hx : ((d.push n).replay (delta n)).2 = x at henter
    have hsound : Sound t Z x := hx ▸ (hd.sound.push n).replay hpos hhalf _
    have hnodes : x.frames.map Frame.node = n :: d.frames.map Frame.node := hx ▸ replay_nodes (d := d.push n) (delta n)
    have hpath : x.path = d.path ++ [n] := by
      unfold path
      rw [hnodes, List.reverse_cons]
    have hleave : d.frames ≠ [] → Agree x.leave d := fun hne => by
      have hdeep : 2 ≤ (d.push n).frames.length := Nat.succ_le_succ (List.length_pos_of_ne_nil hne)
      exact hx ▸ leave_replay hdeep (delta n)
    rw [List.foldl_cons, henter]
    refine ih (d := x) (fun k hk => ?_) (by rwa [hpath, List.append_assoc])
    have hlength : x.frames.length = d.frames.length + 1 := by simpa using congrArg List.length hnodes
    cases k with
    | zero =>
      refine ⟨hsound, fun ms hms => ?_, fun f fs hframes hne hp => ?_⟩
      · change paths (x.path ++ ms) at hms
        rw [hpath, List.append_assoc] at hms
        obtain ⟨hreplays, hq⟩ := hd.ahead _ hms
        exact ⟨hx ▸ hreplays.2, hx ▸ hq⟩
      · change x.frames = f :: fs at hframes
        change Collapses x (descend delta x.leave [f.node])
        rw [hframes, List.map_cons, List.cons.injEq] at hnodes
        have hlow : d.frames ≠ [] := fun hnil => hne (by simpa [hnil] using hnodes.2)
        rw [hnodes.1]
        have hagree : Agree (descend delta d [n]) (descend delta x.leave [n]) := Agree.descend (hleave hlow).symm _
        rw [show descend delta d [n] = x from hx] at hagree
        exact .of_agree hagree
    | succ k =>
      rw [repeat_leave_succ]
      have hlow : d.frames ≠ [] := by
        rintro hnil
        rw [hlength, hnil, List.length_nil] at hk
        omega
      exact (h k (by omega)).agree hpos hhalf hQ ((hleave hlow).repeat_leave k).symm

/-- **Moving to a node** succeeds, from the root or from a node of the tree. -/
theorem levels_restore_path {target : List NodeId} (h : Levels (Passable paths delta t Z Q) d)
    (htarget : paths target) (hoff : d.frames = [] → d.offPath = d)
    (hroot : d.frames ≠ [] → 0 < commonLength d.path target) :
    (d.restore target delta).1 = true ∧ Levels (Passable paths delta t Z Q) (d.restore target delta).2 := by
  have hlevels : Levels (Passable paths delta t Z Q) (d.leaveTo (commonLength d.path target)) := by
    by_cases hne : d.frames = []
    · have hzero : commonLength d.path target = 0 := by simp [path, hne, commonLength]
      rw [hzero, leaveTo_zero, hoff hne]
      exact h
    · have hpositive := hroot hne
      rw [leaveTo_pos d hpositive hne]
      exact h.leave _ (by omega)
  have hpath : (d.leaveTo (commonLength d.path target)).path ++ target.drop (commonLength d.path target) = target := by
    rw [leaveTo_path, take_commonLength, List.take_append_drop]
  obtain ⟨hfeasible, hentered⟩ := levels_enter_path hpos hhalf hQ hlevels (hpath.symm ▸ htarget)
  exact ⟨hfeasible, hentered.agree (fun _ _ hde h => h.agree hpos hhalf hQ hde) rfl⟩

/-! ## Changes at the active node -/

variable {above : List NodeId} {n : NodeId} {cs : List (BoundChange (Exact ℚ))}

omit hQ in
/-- Changes that are appended to those of the last node are replayed after them. -/
theorem replays_added {ms : List NodeId} (hD : Sound t Z D) (hms : Replays delta D (ms ++ [n]))
    (hold : ∀ m ∈ ms, delta' m = delta m) (hadded : delta' n = delta n ++ cs)
    (hcalm : (descend delta D (ms ++ [n])).Calm cs) : Replays delta' D (ms ++ [n]) ∧
      descend delta' D (ms ++ [n]) = ((descend delta D (ms ++ [n])).replay cs).2 := by
  obtain ⟨hreplays, hdescend⟩ := descend_congr (D := D) hold
  rw [replays_append] at hms
  rw [descend_append] at hcalm
  have hbelow : Sound t Z (descend delta D ms) := hD.descend hpos hhalf ms
  obtain ⟨hiff, hreplay⟩ := (hbelow.push n).replay_append hpos hhalf hms.2.1 cs
  rw [replays_append, descend_append, descend_append, hreplays, hdescend]
  refine ⟨⟨hms.1, ?_, trivial⟩, ?_⟩
  · rw [hadded]
    exact hiff.mpr hcalm
  · unfold descend
    rw [hadded]
    exact hreplay

/-- **What changes at the active node**, and what is put below it, keeps the levels: the
changes are appended to those of the node, and whatever the active store has become, the
nodes below it can be entered. -/
theorem levels_extend (cs : List (BoundChange (Exact ℚ))) (h : Levels (Passable paths delta t Z Q) d)
    (hclosed : Closed paths) (hfocus : d.path = above ++ [n]) (hd : paths d.path) (hnodes : e.frames.map Frame.node = d.frames.map Frame.node)
    (hleave : 2 ≤ d.frames.length → Agree e.leave d.leave) (hsound : Sound t Z e)
    (hpaths : ∀ ns, paths' ns → (paths ns ∧ ∀ m ∈ ns, delta' m = delta m) ∨ ∃ ms, ns = d.path ++ ms)
    (hold : ∀ m ∈ above, delta' m = delta m) (hadded : delta' n = delta n ++ cs)
    (hreplay : ∀ {X}, Sound t Z X → Collapses d X → X.Calm cs ∧ Collapses e (X.replay cs).2)
    (hahead : ∀ {X}, Sound t Z X → Collapses e X → ∀ ms, paths' (d.path ++ ms) → Replays delta' X ms ∧ Q (descend delta' X ms)) :
    Levels (Passable paths' delta' t Z Q) e := by
  -- replayed from below, the active node comes to the store that it has become
  have hreplayed : ∀ {D} ms, Sound t Z D → Replays delta D (ms ++ [n]) → (∀ m ∈ ms, m ∈ above) →
      Collapses d (descend delta D (ms ++ [n])) →
      Replays delta' D (ms ++ [n]) ∧ Collapses e (descend delta' D (ms ++ [n])) := by
    intro D ms hD hms hmem hcollapses
    obtain ⟨hcalm, hafter⟩ := hreplay (hD.descend hpos hhalf _) hcollapses
    obtain ⟨hreplays, hdescend⟩ := replays_added hpos hhalf hD hms (fun m hm => hold m (hmem m hm)) hadded hcalm
    exact ⟨hreplays, hdescend ▸ hafter⟩
  have hpath := path_congr hnodes
  have hlength : e.frames.length = d.frames.length := by simpa using congrArg List.length hnodes
  intro k hk
  cases k with
  | zero =>
    change Passable paths' delta' t Z Q e
    refine ⟨hsound, fun ms hms => hahead hsound (.refl e) ms (hpath ▸ hms), fun f fs hframes hne _ => ?_⟩
    have hpos' := List.length_pos_of_ne_nil hne
    rw [hframes, List.length_cons] at hlength
    cases hdframes : d.frames with
    | nil =>
      rw [hdframes] at hlength
      cases hlength
    | cons f' fs' =>
      rw [hdframes] at hlength
      have hdeep : 2 ≤ d.frames.length := by
        rw [hdframes, ← hlength]
        omega
      have hne' : fs' ≠ [] := List.ne_nil_of_length_pos (by simp at hlength; omega)
      have hd' := path_of_frames hdframes
      obtain ⟨rfl, hn⟩ := List.append_inj' (hd'.symm.trans hfocus) rfl
      obtain rfl := List.singleton_injective hn
      have he : f.node = f'.node := by
        rw [hframes, hdframes, List.map_cons, List.map_cons] at hnodes
        exact (List.cons.inj hnodes).1
      have hone : 1 ≤ d.frames.length - 1 := by omega
      have hbelow : Passable paths delta t Z Q d.leave := h 1 hone
      have hlinked := h.top.linked f' fs' hdframes hne' hd
      have hafter := (hreplayed [] hbelow.sound (hbelow.ahead [f'.node] (hd' ▸ hd)).1 nofun hlinked).2
      rw [he]
      exact hafter.trans (.of_agree (Agree.descend (hleave hdeep).symm _))
  | succ k =>
    rw [hlength] at hk
    obtain ⟨ms, hms, hreplays, hcollapses⟩ := levels_chain hpos hhalf h hclosed hd hk
    have hlevel := h (k + 1) hk
    have hagree : Agree ((k + 1).repeat leave d) ((k + 1).repeat leave e) := by
      rw [repeat_leave_succ, repeat_leave_succ]
      exact ((hleave (by omega)).repeat_leave k).symm
    have hshort : ((k + 1).repeat leave d).path.length + 1 ≤ d.path.length := by
      have := congrArg List.length (repeat_leave_frames (k + 1) d)
      simp only [List.length_drop] at this
      simp only [path, List.length_reverse, List.length_map]
      omega
    generalize (k + 1).repeat leave d = D at hms hreplays hcollapses hlevel hagree hshort
    obtain ⟨ns, m, rfl⟩ : ∃ ns m, ms = ns ++ [m] := by
      rcases List.eq_nil_or_concat ms with rfl | ⟨ns, m, rfl⟩
      · rw [List.append_nil] at hms
        rw [hms] at hshort
        omega
      · exact ⟨ns, m, List.concat_eq_append⟩
    rw [hfocus, ← List.append_assoc] at hms
    obtain ⟨habove, hm⟩ := List.append_inj' hms rfl
    obtain rfl := List.singleton_injective hm
    obtain ⟨hreplays', hcollapses'⟩ := hreplayed ns hlevel.sound hreplays
      (fun m hm => habove ▸ List.mem_append_right _ hm) hcollapses
    refine Passable.agree hpos hhalf hQ ⟨hlevel.sound, fun ms' hms' => ?_, fun f fs hframes hne _ => ?_⟩ hagree
    · rcases hpaths _ hms' with ⟨hmem, hsame⟩ | ⟨rest, hrest⟩
      · obtain ⟨hiff, hdescend⟩ := descend_congr (D := D) fun n hn => hsame n (List.mem_append_right _ hn)
        rw [hiff, hdescend]
        exact hlevel.ahead ms' hmem
      · obtain rfl : ms' = ns ++ [m] ++ rest := by
          have heq : D.path ++ ms' = D.path ++ (ns ++ [m] ++ rest) := by
            rw [hrest, hfocus, ← hms, List.append_assoc, List.append_assoc, List.append_assoc]
          exact List.append_cancel_left heq
        have hnext := hahead (hlevel.sound.descend hpos hhalf _) hcollapses' rest (hrest ▸ hms')
        rw [replays_append, descend_append D (ns ++ [m]) rest]
        exact ⟨⟨hreplays', hnext.1⟩, hnext.2⟩
    · have hD := path_of_frames hframes
      have hmem : f.node ∈ above := by
        rw [← habove, hD]
        simp
      have hne' : D.path ≠ [] := by simp [hD]
      have hmem' : paths D.path := hclosed D.path (ns ++ [m]) (by rw [← List.append_assoc, hms, ← hfocus]; exact hd) hne'
      rw [(descend_congr fun n hn => hold n (List.mem_singleton.mp hn ▸ hmem)).2]
      exact hlevel.linked f fs hframes hne hmem'

/-- The active node has nothing below it. -/
structure Ends (paths : List NodeId → Prop) (d : Domains (Exact ℚ)) (n : NodeId) : Prop where
  focus : ∃ above, d.path = above ++ [n] ∧ n ∉ above
  mem : paths d.path
  closed : Closed paths
  leaf : ∀ ns, paths ns → n ∈ ns → ns = d.path

omit [Rooted ℚ] hpos hhalf hQ in
theorem Ends.congr (h : Ends paths d n) (hnodes : e.frames.map Frame.node = d.frames.map Frame.node) : Ends paths e n := by
  have hpath := path_congr hnodes
  exact ⟨hpath ▸ h.focus, hpath ▸ h.mem, h.closed, hpath ▸ h.leaf⟩

omit [Rooted ℚ] hpos hhalf hQ in
theorem Ends.entered (h : Ends paths d n) : d.frames ≠ [] := by
  obtain ⟨above, hpath, -⟩ := h.focus
  intro hnil
  simp [path, hnil] at hpath

omit [Rooted ℚ] hpos hhalf hQ in
/-- No path goes on below the node. -/
theorem Ends.below (h : Ends paths d n) {ms : List NodeId} (hms : paths (d.path ++ ms)) : ms = [] := by
  obtain ⟨above, hpath, -⟩ := h.focus
  have hsame := h.leaf _ hms (List.mem_append_left _ (by simp [hpath]))
  exact List.append_right_eq_self.mp hsame

/-- The changes of the tree, and more at one node. -/
def appended (delta : NodeId → List (BoundChange (Exact ℚ))) (n : NodeId) (cs : List (BoundChange (Exact ℚ))) :
    NodeId → List (BoundChange (Exact ℚ)) := Function.update delta n (delta n ++ cs)

omit [Rooted ℚ] hpos hhalf hQ in
@[simp] theorem appended_nil : appended delta n [] = delta := by simp [appended]

omit [Rooted ℚ] hpos hhalf hQ in
theorem appended_self : appended delta n cs n = delta n ++ cs := Function.update_self ..

omit [Rooted ℚ] hpos hhalf hQ in
theorem appended_of_ne {m : NodeId} (h : m ≠ n) : appended delta n cs m = delta m := Function.update_of_ne h ..

/-- **A request that is recorded** at the active node is replayed with its other changes. -/
theorem levels_request (h : Levels (Passable paths (appended delta n cs) t Z Q) d) (hends : Ends paths d n) {v : VarId}
    {kind : BoundKind} {value new : Exact ℚ} (happlied : d.judge v kind value = (.applied, new)) (reason : Reason)
    (hq : Q (d.record v kind new reason)) :
    Levels (Passable paths (appended delta n (cs ++ [⟨v, kind, d.bound v kind, new, reason⟩])) t Z Q)
      (d.record v kind new reason) := by
  obtain ⟨above, hfocus, hnot⟩ := hends.focus
  have hspans := h.top.sound.judge_spans hpos hhalf happlied
  have hne : ∀ m ∈ above, m ≠ n := fun m hm heq => hnot (heq ▸ hm)
  refine levels_extend hpos hhalf hQ [⟨v, kind, d.bound v kind, new, reason⟩] h hends.closed hfocus hends.mem
    (record_nodes v kind new reason) (fun hdeep => leave_record hdeep v kind new reason)
    (h.top.sound.record hpos hhalf hspans reason) (fun ns hns => ?_)
    (fun m hm => ?_) ?_ (fun {X} hX hcollapses => ?_) (fun {X} _ hcollapses ms hms => ?_)
  · by_cases hmem : n ∈ ns
    · exact .inr ⟨[], by rw [List.append_nil]; exact hends.leaf ns hns hmem⟩
    · refine .inl ⟨hns, fun m hm => ?_⟩
      have hm : m ≠ n := fun heq => hmem (heq ▸ hm)
      rw [appended_of_ne hm, appended_of_ne hm]
  · rw [appended_of_ne (hne m hm), appended_of_ne (hne m hm)]
  · rw [appended_self, appended_self, List.append_assoc]
  · have hX' := hcollapses.spans hspans
    refine ⟨⟨hX', trivial⟩, ?_⟩
    rw [hX.replay_cons hpos hhalf hX', replay_nil]
    exact hcollapses.record hpos hhalf h.top.sound hX happlied reason
  · obtain rfl := hends.below hms
    exact ⟨trivial, hQ hcollapses hq⟩

omit hpos hhalf hQ in
theorem focusDelta_record (hne : d.frames ≠ []) (v : VarId) (kind : BoundKind) (value : Exact ℚ) (reason : Reason) :
    (d.record v kind value reason).focusDelta = d.focusDelta ++ [⟨v, kind, d.bound v kind, value, reason⟩] := by
  unfold focusDelta
  rw [record_frames]
  cases hframes : d.frames with
  | nil => exact absurd hframes hne
  | cons f fs => exact List.reverse_cons

/-- **Requests at the active node**: what they have recorded since is replayed with the
changes of the node. -/
theorem levels_moves (hkeep : ∀ {d v kind value new reason}, Sound t Z d → Q d → d.judge v kind value = (.applied, new) →
      Q (d.record v kind new reason)) {replayed : Nat}
    (h : Levels (Passable paths (appended delta n (d.focusDelta.drop replayed)) t Z Q) d) (hends : Ends paths d n)
    (hreplayed : replayed ≤ d.focusDelta.length) (hde : d.Moves e) :
    Levels (Passable paths (appended delta n (e.focusDelta.drop replayed)) t Z Q) e ∧ Ends paths e n ∧
      replayed ≤ e.focusDelta.length := by
  induction hde with
  | refl => exact ⟨h, hends, hreplayed⟩
  | tail _ hmove ih =>
    obtain ⟨h, hends, hreplayed⟩ := ih
    cases hmove with
    | agree hagree =>
      have hframes := hagree.frames
      unfold focusDelta at h hreplayed ⊢
      rw [← hframes]
      exact ⟨h.agree (fun _ _ hde h => h.agree hpos hhalf hQ hde) hagree, hends.congr (by rw [hframes]), hreplayed⟩
    | request v kind value reason =>
      refine tighten_keeps (I := fun e => Levels (Passable paths (appended delta n (e.focusDelta.drop replayed)) t Z Q) e ∧
        Ends paths e n ∧ replayed ≤ e.focusDelta.length) ⟨h, hends, hreplayed⟩ fun new happlied => ?_
      rw [focusDelta_record hends.entered, List.drop_append_of_le_length hreplayed]
      have hq := (h.top.ahead [] (by rw [List.append_nil]; exact hends.mem)).2
      have hnext := levels_request hpos hhalf hQ h hends happlied reason (hkeep h.top.sound hq happlied)
      refine ⟨hnext, hends.congr (record_nodes v kind new reason), ?_⟩
      rw [List.length_append]
      exact Nat.le_add_right_of_le hreplayed

/-- **Nodes put below the active one** can be entered from it, whichever variables have
collapsed there. -/
theorem levels_split (h : Levels (Passable paths delta t Z Q) d) (hends : Ends paths d n) {C : NodeId → Prop}
    (hpaths : ∀ ns, paths' ns → (paths ns ∧ ∀ m ∈ ns, delta' m = delta m) ∨ ∃ m, ns = d.path ++ [m] ∧ C m)
    (hold : ∀ m ∈ d.path, delta' m = delta m)
    (hchild : ∀ {X}, Sound t Z X → Collapses d X → ∀ m, C m →
      (X.push m).Calm (delta' m) ∧ Q ((X.push m).replay (delta' m)).2) : Levels (Passable paths' delta' t Z Q) d := by
  obtain ⟨above, hfocus, -⟩ := hends.focus
  have hq : Q d := (h.top.ahead [] (by rw [List.append_nil]; exact hends.mem)).2
  refine levels_extend hpos hhalf hQ [] h hends.closed hfocus hends.mem rfl (fun _ => rfl) h.top.sound
    (fun ns hns => (hpaths ns hns).imp id fun ⟨m, hm, _⟩ => ⟨[m], hm⟩) (fun m hm => hold m ?_) ?_
    (fun {X} _ hcollapses => ⟨trivial, hcollapses⟩) (fun {X} hX hcollapses ms hms => ?_)
  · rw [hfocus]
    exact List.mem_append_left _ hm
  · rw [List.append_nil]
    exact hold n (by simp [hfocus])
  · rcases hpaths _ hms with ⟨hmem, -⟩ | ⟨m, heq, hm⟩
    · obtain rfl := hends.below hmem
      exact ⟨trivial, hQ hcollapses hq⟩
    · obtain rfl := List.append_cancel_left heq
      obtain ⟨hcalm, hafter⟩ := hchild hX hcollapses m hm
      exact ⟨⟨hcalm, trivial⟩, hafter⟩

end BranchAndCut.Domains

import BranchAndCut.Proofs.Domain.InForce
import BranchAndCut.Proofs.Domain.Passage
import BranchAndCut.Proofs.Domain.Verdict

/-! # Coming back to a node whose changes were stored

What is recorded at a node is stored with it and replayed when the store comes back from
other nodes. A bound that has closed a domain which was open by less than counts as a
tightening is skipped then, so that the variable, which is not integral, is left open by
that much. Everything else is as it was: integral variables, and all variables that are
still open. What the nodes below have stored names the point where the variable had
collapsed, and can be replayed all the same. -/

namespace BranchAndCut.Domains

variable [Rooted ℚ] {t : Exact ℚ} {Z : VarId → Prop} {S D E X d e : Domains (Exact ℚ)} {v : VarId} {kind : BoundKind}
  {a value new : Exact ℚ} {cs : List (BoundChange (Exact ℚ))} {delta : NodeId → List (BoundChange (Exact ℚ))}
  {root : NodeId} {target : List NodeId}

/-! ## Requests that are reached already -/

theorem tighten_of_reaches (h : kind.Reaches (D.bound v kind) (D.rounded v kind a)) (reason : Reason) :
    (D.tighten v kind a reason).2 = D := by
  have hjudge : (D.judge v kind a).1 = .redundant := judge_redundant.mpr (.inr h)
  unfold Domains.tighten
  generalize D.judge v kind a = judged at hjudge
  obtain ⟨outcome, value⟩ := judged
  obtain rfl : outcome = .redundant := hjudge
  rfl

/-- The second store is a replay of the first. It differs in variables that the first has
collapsed, and its bounds are as tight as the point where they have, or looser by less than
counts as a tightening. -/
structure Retraces (S D : Domains (Exact ℚ)) : Prop where
  collapses : Collapses S D
  near : ∀ v, (D.lb v = S.lb v ∧ D.ub v = S.ub v) ∨ ∀ kind : BoundKind, kind.Reaches (D.bound v kind) (S.lb v)

namespace Retraces

theorem of_agree (h : Agree S D) : Retraces S D := by
  refine ⟨.of_agree h, fun v => .inl ?_⟩
  rw [h.eq_with]
  exact ⟨rfl, rfl⟩

theorem refl (S : Domains (Exact ℚ)) : Retraces S S := of_agree rfl

theorem bound_eq (h : E.lb v = D.lb v ∧ E.ub v = D.ub v) (kind : BoundKind) : E.bound v kind = D.bound v kind := by
  cases kind with
  | lower => exact h.1
  | upper => exact h.2

theorem trans (h : Retraces S D) (h' : Retraces D E) : Retraces S E := by
  refine ⟨h.collapses.trans h'.collapses, fun v => ?_⟩
  have hpoint : (D.lb v = S.lb v ∧ D.ub v = S.ub v) ∨ (E.lb v = D.lb v ∧ E.ub v = D.ub v) ∨ D.lb v = S.lb v := by
    rcases h.collapses.at_var v with hsame | hat
    · exact .inl hsame
    · rcases h'.collapses.at_var v with hsame' | hat'
      · exact .inr (.inl hsame')
      · exact .inr (.inr (hat.spans.eq_of_point hat'.point).symm)
  rcases h'.near v with hsame' | hnear'
  · rcases h.near v with hsame | hnear
    · exact .inl ⟨hsame'.1.trans hsame.1, hsame'.2.trans hsame.2⟩
    · refine .inr fun kind => ?_
      rw [bound_eq hsame']
      exact hnear kind
  · rcases hpoint with hsame | hsame' | hlb
    · exact .inr (hsame.1 ▸ hnear')
    · rcases h.near v with hsame | hnear
      · exact .inr (hsame.1 ▸ hnear')
      · refine .inr fun kind => ?_
        rw [bound_eq hsame']
        exact hnear kind
    · exact .inr (hlb ▸ hnear')

theorem push (h : Retraces S D) (node : NodeId) : Retraces (S.push node) (D.push node) :=
  ⟨h.collapses.push node, h.near⟩

/-- It is enough to look at the variable that a request names. -/
theorem update (h : Retraces S D) {S' D' : Domains (Exact ℚ)} (hcollapses : Collapses S' D')
    (hother : ∀ w, w ≠ v → (S'.lb w = S.lb w ∧ S'.ub w = S.ub w) ∧ D'.lb w = D.lb w ∧ D'.ub w = D.ub w)
    (hat : (D'.lb v = S'.lb v ∧ D'.ub v = S'.ub v) ∨ ∀ kind : BoundKind, kind.Reaches (D'.bound v kind) (S'.lb v)) :
    Retraces S' D' := by
  refine ⟨hcollapses, fun w => ?_⟩
  by_cases hw : w = v
  · exact hw ▸ hat
  · obtain ⟨hsameS, hsameD⟩ := hother w hw
    rw [hsameS.1, hsameS.2, hsameD.1, hsameD.2]
    refine (h.near w).imp id fun hnear kind => ?_
    rw [bound_eq hsameD]
    exact hnear kind

/-- Where the bounds differ, the first store has collapsed the variable to a point that the
second reaches. -/
theorem cases (h : Retraces S D) (v : VarId) : (D.lb v = S.lb v ∧ D.ub v = S.ub v) ∨
    S.CollapsedAt D v ∧ ∀ kind : BoundKind, kind.Reaches (D.bound v kind) (S.lb v) := by
  rcases h.near v with hsame | hnear
  · exact .inl hsame
  · exact (h.collapses.at_var v).imp id fun hat => ⟨hat, hnear⟩

variable (hpos : 0 < t) (hhalf : t < 0.5)

include hpos hhalf

/-- A request for the point where the first store has collapsed the variable does nothing. -/
theorem tighten_point (hD : Sound t Z D) (hat : S.CollapsedAt D v)
    (hnear : ∀ kind : BoundKind, kind.Reaches (D.bound v kind) (S.lb v)) (kind : BoundKind) (reason : Reason) :
    (D.tighten v kind (S.lb v) reason).2 = D := by
  refine tighten_of_reaches ?_ reason
  rw [hD.rounded_eq hpos hhalf kind hat.spans.whole]
  exact hnear kind

/-- **A request for a value between the bounds** keeps a replay one. -/
theorem tighten (h : Retraces S D) (hS : Sound t Z S) (hD : Sound t Z D) (ha : S.Spans v a) (kind : BoundKind)
    (reason : Reason) : Retraces (S.tighten v kind a reason).2 (D.tighten v kind a reason).2 := by
  refine h.update (h.collapses.tighten hpos hhalf hS hD ha kind reason)
    (fun w hw => ⟨tighten_other hw .., tighten_other hw ..⟩) ?_
  rcases h.cases v with hsame | ⟨hat, hnear⟩
  · exact .inl (h.collapses.tighten_same hsame kind a reason)
  · obtain rfl := ha.eq_of_point hat.point
    rw [tighten_point hpos hhalf hD hat hnear, (hS.tighten_point hpos hhalf hat.point ha kind reason).1]
    exact .inr hnear

end Retraces

variable (hpos : 0 < t) (hhalf : t < 0.5)

/-- An infinite bound that is reached is met, or the domain is empty. -/
theorem eq_of_reaches_infinite {b other : Exact ℚ} {ε : ℚ} (hreach : kind.Reaches b other)
    (hinfinite : ∀ q : ℚ, other ≠ .fin q)
    (hnonempty : match kind with
      | .lower => ¬ other + .fin ε < b
      | .upper => ¬ b + .fin ε < other) : b = other := by
  cases other with
  | fin q => exact absurd rfl (hinfinite q)
  | nan =>
    cases kind with
    | lower => exact absurd rfl (Exact.ne_nan_of_le hreach).1
    | upper => exact absurd rfl (Exact.ne_nan_of_le hreach).2
  | _ =>
    unfold BoundKind.Reaches at hreach
    cases b with
    | fin q =>
      rw [boundEps_slack] at hreach
      cases kind <;> first | exact hreach.elim | exact (hnonempty trivial).elim
    | nan => cases kind <;> exact hreach.elim
    | _ =>
      cases kind <;> first
        | rfl
        | exact (hnonempty trivial).elim
        | rw [boundEps_of_infinite rfl] at hreach; exact hreach.elim

include hpos hhalf in
/-- A bound that is looser than the other one by less than counts as a tightening. -/
theorem Sound.reaches_point (h : Sound t Z D) (hreach : kind.Reaches (D.bound v kind) a)
    (hmeets : ∀ kind', kind' ≠ kind → D.bound v kind' = a) :
    (D.lb v = a ∧ D.ub v = a) ∨ ∀ kind' : BoundKind, kind'.Reaches (D.bound v kind') a := by
  have hnonempty := h.nonempty v
  obtain ⟨ε, rfl, -⟩ := Exact.exists_fin_of_tolerance hpos hhalf
  by_cases hfinite : ∃ q, a = .fin q
  · obtain ⟨q, rfl⟩ := hfinite
    refine .inr fun kind' => ?_
    by_cases hk : kind' = kind
    · exact hk ▸ hreach
    · rw [hmeets kind' hk]
      exact BoundKind.reaches_fin (.refl nofun)
  · have hinfinite : ∀ q, a ≠ .fin q := fun q hq => hfinite ⟨q, hq⟩
    left
    cases kind with
    | lower =>
      obtain rfl : D.ub v = a := hmeets .upper nofun
      exact ⟨eq_of_reaches_infinite hreach hinfinite hnonempty, rfl⟩
    | upper =>
      obtain rfl : D.lb v = a := hmeets .lower nofun
      exact ⟨rfl, eq_of_reaches_infinite hreach hinfinite hnonempty⟩

/-! ## Replays -/

section Replays

include hpos hhalf

/-- **A bound that the first store records** is requested of the second when it is replayed. -/
theorem Retraces.record (h : Retraces S D) (hS : Sound t Z S) (hD : Sound t Z D)
    (happlied : S.judge v kind value = (.applied, new)) (reason : Reason) :
    Retraces (S.record v kind new reason) (D.tighten v kind new reason).2 := by
  have hnew := hS.judge_spans hpos hhalf happlied
  refine h.update (h.collapses.record hpos hhalf hS hD happlied reason)
    (fun w hw => ⟨record_other hw .., tighten_other hw ..⟩) ?_
  rcases h.cases v with hsame | ⟨hat, hnear⟩
  · have hjudge := judge_congr hsame.1 hsame.2 (h.collapses.isIntegral v) (congrArg Shape.tol h.collapses.shape) kind new
    rcases hS.judge_again hpos hhalf happlied with hagain | ⟨-, hredundant, hmeets⟩
    · unfold Domains.tighten
      rw [hjudge, hagain]
      exact .inl (h.collapses.record_same hsame kind new reason reason)
    · have hspans := h.collapses.spans hnew
      rw [← hjudge, judge_redundant, hD.rounded_eq hpos hhalf kind hspans.whole] at hredundant
      have hreach := hredundant.resolve_left fun hnan => hnew.defined (Exact.isNaN_iff.mp hnan)
      have hstays : (D.tighten v kind new reason).2 = D := by
        refine tighten_of_reaches ?_ reason
        rwa [hD.rounded_eq hpos hhalf kind hspans.whole]
      rw [hstays]
      rcases record_meets hmeets reason with hold | ⟨hlb, hub⟩
      · rw [hold.1, hold.2]
        exact .inl hsame
      · rw [hlb, hub]
        refine hD.reaches_point hpos hhalf hreach fun kind' hk => ?_
        rw [bound_eq hsame]
        exact hmeets kind' hk
  · obtain rfl := hnew.eq_of_point hat.point
    rw [tighten_point hpos hhalf hD hat hnear, (record_point hat.point kind reason).1]
    exact .inr hnear

/-- **A replay from a replay** succeeds where the first one does. -/
theorem Retraces.replay (h : Retraces S D) (hS : Sound t Z S) (hD : Sound t Z D) (hcs : S.Calm cs) :
    (D.replay cs).1 = true ∧ Retraces (S.replay cs).2 (D.replay cs).2 := by
  induction cs generalizing S D with
  | nil => exact ⟨rfl, h⟩
  | cons c cs ih =>
    have hspans := h.collapses.spans hcs.1
    rw [hS.replay_cons hpos hhalf hcs.1, hD.replay_cons hpos hhalf hspans]
    exact ih (h.tighten hpos hhalf hS hD hcs.1 c.kind c.reason) (hS.tighten hpos hhalf ..) (hD.tighten hpos hhalf ..) hcs.2

/-- What the second store has recorded at its node can be replayed on the first, which has
recorded nothing yet. -/
structure Replayable (t : Exact ℚ) (Z : VarId → Prop) (X e : Domains (Exact ℚ)) : Prop where
  sound : Sound t Z e
  entered : e.frames ≠ []
  calm : X.Calm e.focusDelta
  retraces : Retraces e (X.replay e.focusDelta).2

omit hpos hhalf in
theorem Replayable.agree (h : Replayable t Z X d) (hde : Agree d e) : Replayable t Z X e := by
  have hdelta : e.focusDelta = d.focusDelta := by
    unfold focusDelta
    rw [hde.frames]
  refine ⟨h.sound.agree hde, hde.frames ▸ h.entered, ?_, ?_⟩
  · rw [hdelta]
    exact h.calm
  · rw [hdelta]
    exact (Retraces.of_agree hde.symm).trans h.retraces

theorem Replayable.record (hX : Sound t Z X) (h : Replayable t Z X d) (happlied : d.judge v kind value = (.applied, new))
    (reason : Reason) : Replayable t Z X (d.record v kind new reason) := by
  have hspans := h.sound.judge_spans hpos hhalf happlied
  have hthere := h.retraces.collapses.spans hspans
  have hreplayed : Sound t Z (X.replay d.focusDelta).2 := hX.replay hpos hhalf _
  have hdelta := focusDelta_record h.entered v kind new reason
  obtain ⟨hiff, hreplay⟩ := hX.replay_append hpos hhalf h.calm [⟨v, kind, d.bound v kind, new, reason⟩]
  refine ⟨h.sound.record hpos hhalf hspans reason, ?_, ?_, ?_⟩
  · have hnodes := record_nodes (d := d) v kind new reason
    intro hnil
    rw [hnil, List.map_nil, eq_comm, List.map_eq_nil_iff] at hnodes
    exact h.entered hnodes
  · rw [hdelta]
    exact hiff.mpr ⟨hthere, trivial⟩
  · rw [hdelta, hreplay, hreplayed.replay_cons hpos hhalf hthere, replay_nil]
    exact h.retraces.record hpos hhalf h.sound hreplayed happlied reason

/-- **Requests at a node** leave what is recorded there fit to be replayed. -/
theorem Replayable.moves (hX : Sound t Z X) (hne : X.frames ≠ []) (hempty : X.focusDelta = []) (hmoves : X.Moves e) :
    Replayable t Z X e := by
  induction hmoves with
  | refl => exact ⟨hX, hne, by rw [hempty]; trivial, by rw [hempty]; exact .refl X⟩
  | tail _ hmove ih =>
    cases hmove with
    | agree hagree => exact ih.agree hagree
    | request v kind value reason => exact tighten_keeps ih fun _ happlied => ih.record hpos hhalf hX happlied reason

theorem Sound.enter {acc : Bool × Domains (Exact ℚ)} (h : Sound t Z acc.2) (node : NodeId) :
    Sound t Z (Domains.enter delta acc node).2 := by
  unfold Domains.enter
  dsimp only
  split
  · exact (h.push node).replay hpos hhalf _
  · exact h.push node

theorem Sound.foldl_enter {acc : Bool × Domains (Exact ℚ)} (h : Sound t Z acc.2) (nodes : List NodeId) :
    Sound t Z (nodes.foldl (Domains.enter delta) acc).2 := by
  induction nodes generalizing acc with
  | nil => exact h
  | cons node nodes ih => exact ih (h.enter hpos hhalf node)

/-- A move from the root. -/
theorem Sound.restore (h : Sound t Z d) (hd : d.path = [root]) (htarget : target.head? = some root) :
    Sound t Z (d.restore target delta).2 := by
  obtain ⟨tail, rfl⟩ : ∃ tail, target = d.path ++ tail := by
    cases target with
    | nil => cases htarget
    | cons n tail =>
      simp only [List.head?_cons, Option.some.injEq] at htarget
      exact ⟨tail, by rw [hd, htarget]; rfl⟩
  have hroot : d.path.head? = some root := by
    rw [hd]
    rfl
  rw [restore_append delta (commonLength_le_of_isPrefix (List.prefix_refl _) tail), restore_of_isPrefix (List.prefix_refl _),
    length_path, leaveTo_length (frames_ne_nil hroot)]
  have hstart : Sound t Z (true, d.clearPending).2 := h.agree (agree_clearPending d).symm
  have hentered : Sound t Z (tail.foldl (Domains.enter delta) (true, d.clearPending)).2 :=
    Sound.foldl_enter hpos hhalf hstart tail
  exact hentered.agree (agree_clearPending _).symm

end Replays

/-! ## Nodes whose changes are stored -/

/-- Stores at nodes that have their changes stored: the path of a first move, and then nodes
below it one after another. The next node is entered by what is stored with it, which it can
be if each of the changes is between the bounds, or else bounds have been requested there
since it was entered, and what it has recorded is stored. -/
inductive Saved (root : NodeId) (delta : NodeId → List (BoundChange (Exact ℚ))) (d : Domains (Exact ℚ)) :
    Domains (Exact ℚ) → Prop
  | visit {path : List NodeId} (hpath : path.head? = some root) (hok : (d.restore path delta).1 = true) :
      Saved root delta d (d.restore path delta).2
  | enter {B : Domains (Exact ℚ)} (h : Saved root delta d B) {n : NodeId} (hcalm : (B.push n).Calm (delta n)) :
      Saved root delta d (B.restore (B.path ++ [n]) delta).2
  | save {B e : Domains (Exact ℚ)} (h : Saved root delta d B) {n : NodeId}
      {earlier : NodeId → List (BoundChange (Exact ℚ))} (hmoves : (B.restore (B.path ++ [n]) earlier).2.Moves e)
      (hstored : delta n = e.focusDelta) : Saved root delta d e

/-- The second store is at a node below the first one, and what is stored with the node leads
there. -/
structure Child (t : Exact ℚ) (Z : VarId → Prop) (delta : NodeId → List (BoundChange (Exact ℚ))) (n : NodeId)
    (B e : Domains (Exact ℚ)) : Prop where
  sound : Sound t Z e
  path : e.path = B.path ++ [n]
  level : Agree (e.leaveTo B.path.length) B
  calm : (B.push n).Calm (delta n)
  retraces : Retraces e ((B.push n).replay (delta n)).2

/-- From wherever the store has gone, it can come back to its node, to a store that retraces
the one it was. -/
structure ComesBack (t : Exact ℚ) (Z : VarId → Prop) (root : NodeId) (delta : NodeId → List (BoundChange (Exact ℚ)))
    (e : Domains (Exact ℚ)) : Prop where
  sound : Sound t Z e
  rooted : e.path.head? = some root
  back : ∀ e', Visited root delta e e' → ∃ D, e'.restore e.path delta = (true, D) ∧ Sound t Z D ∧ Retraces e D

theorem Visited.rooted (h : Visited root delta d e) (hd : d.path.head? = some root) : e.path.head? = some root := by
  cases h with
  | start => exact hd
  | restore _ htarget => rwa [restore_path]

/-- One more node. -/
theorem restore_child {path : List NodeId} {n : NodeId} (hshort : commonLength X.path (path ++ [n]) ≤ path.length)
    (hpath : X.restore path delta = (true, D)) : X.restore (path ++ [n]) delta =
      (((D.push n).replay (delta n)).1, ((D.push n).replay (delta n)).2.clearPending) := by
  rw [restore_append delta hshort, hpath]
  rfl

section Children

variable {B : Domains (Exact ℚ)} {n : NodeId}

/-- From below a child the store comes to where it would come from its parent, as soon as it
leaves the child. -/
theorem Child.visited (hc : Child t Z delta n B e) (hroot : B.path.head? = some root) {e' : Domains (Exact ℚ)}
    (h : Visited root delta e e') :
    (e.path <+: e'.path ∧ Agree (e'.leaveTo e.path.length) e) ∨ Visited root delta B e' := by
  have hlength : e.path.length = B.path.length + 1 := by simp [hc.path]
  have hB : 0 < B.path.length := List.length_pos_of_ne_nil fun hnil => by simp [hnil] at hroot
  have he : e.frames ≠ [] := List.ne_nil_of_length_pos (by rw [← length_path]; omega)
  induction h with
  | start =>
    refine .inl ⟨List.prefix_refl _, ?_⟩
    rw [length_path, leaveTo_length he]
    rfl
  | @restore s _ target htarget ih =>
    rcases ih with ⟨hbegins, hlevel⟩ | hvisited
    · have hs : e.path.length ≤ s.frames.length := length_path s ▸ hbegins.length_le
      by_cases hthrough : e.path <+: target
      · have hkept := leaveTo_restore delta (by omega) (le_commonLength hbegins hthrough)
        exact .inl ⟨by rwa [restore_path], hkept.trans hlevel⟩
      · have hshort : commonLength s.path target ≤ B.path.length := by
          by_contra hlong
          rw [commonLength_comm] at hlong
          exact hthrough (isPrefix_of_le_commonLength hbegins (by omega))
        have hpath : s.path.head? = some root := by
          obtain ⟨tail, htail⟩ := hbegins
          rw [← htail, hc.path, List.append_assoc, List.head?_append_of_ne_nil _ (List.ne_nil_of_length_pos hB)]
          exact hroot
        -- the move leaves the child, and so starts from its parent
        have hparent : Agree (s.leaveTo B.path.length) B := by
          have hbelow := hlevel.leaveTo B.path.length
          rw [leaveTo_leaveTo (List.ne_nil_of_length_pos (by omega)) hB (by omega)] at hbelow
          exact hbelow.trans hc.level
        rw [← restore_leaveTo (commonLength_pos hpath htarget) hshort, hparent.restore target]
        exact .inr (.restore .start htarget)
    · exact .inr (hvisited.restore htarget)

variable (hpos : 0 < t) (hhalf : t < 0.5)

include hpos hhalf

/-- From where the child has been left, or was never entered, it is entered by a replay. -/
theorem Child.replayed (hc : Child t Z delta n B e) (hB : ComesBack t Z root delta B) (hX : Visited root delta B X)
    (hleft : commonLength X.path e.path ≤ B.path.length) :
    ∃ D, X.restore e.path delta = (true, D) ∧ Sound t Z D ∧ Retraces e D := by
  obtain ⟨D, hpath, hsound, hretraces⟩ := hB.back X hX
  obtain ⟨hanswer, hreplay⟩ := (hretraces.push n).replay hpos hhalf (hB.sound.push n) (hsound.push n) hc.calm
  rw [hc.path] at hleft ⊢
  rw [restore_child hleft hpath, hanswer]
  refine ⟨_, rfl, ?_, ?_⟩
  · exact ((hsound.push n).replay hpos hhalf _).agree (agree_clearPending _).symm
  · exact (hc.retraces.trans hreplay).trans (.of_agree (agree_clearPending _).symm)

/-- Where the child is entered from its parent, its level retraces the store that it was. -/
theorem Child.level_retraces (hc : Child t Z delta n B e) (hB : ComesBack t Z root delta B) (hX : Visited root delta B X)
    (hthrough : e.path <+: X.path) :
    Sound t Z (X.leaveTo e.path.length) ∧ Retraces e (X.leaveTo e.path.length) := by
  have hlength : e.path.length = B.path.length + 1 := by simp [hc.path]
  induction hX with
  | start =>
    have hle := hthrough.length_le
    omega
  | @restore s hs target htarget ih =>
    rw [restore_path] at hthrough
    have hne : e.path ≠ [] := List.ne_nil_of_length_pos (by omega)
    by_cases hshort : commonLength s.path e.path ≤ B.path.length
    · obtain ⟨D, hpath, hsound, hretraces⟩ := hc.replayed hpos hhalf hB hs hshort
      have hlevel := leaveTo_restore_isPrefix s delta hne hthrough
      rw [hpath] at hlevel
      exact ⟨hsound.agree hlevel.symm, hretraces.trans (.of_agree hlevel.symm)⟩
    · have hstill : e.path <+: s.path := isPrefix_of_le_commonLength (List.prefix_refl e.path) (by omega)
      obtain ⟨hsound, hretraces⟩ := ih hstill
      have hkept := leaveTo_restore delta (by omega) (le_commonLength hstill hthrough)
      exact ⟨hsound.agree hkept.symm, hretraces.trans (.of_agree hkept.symm)⟩

/-- **A child of a node to which the store can come back** is one as well. -/
theorem Child.comesBack (hc : Child t Z delta n B e) (hB : ComesBack t Z root delta B) : ComesBack t Z root delta e := by
  have hne : B.path ≠ [] := fun hnil => by simpa [hnil] using hB.rooted
  have hroot : e.path.head? = some root := by
    rw [hc.path, List.head?_append_of_ne_nil _ hne]
    exact hB.rooted
  refine ⟨hc.sound, hroot, fun e' he' => ?_⟩
  rcases hc.visited hB.rooted he' with ⟨hthrough, hlevel⟩ | hvisited
  · refine ⟨_, restore_of_isPrefix hthrough, ?_, ?_⟩
    · exact (hc.sound.agree hlevel.symm).agree (agree_clearPending _).symm
    · exact (Retraces.of_agree hlevel.symm).trans (.of_agree (agree_clearPending _).symm)
  · by_cases hthrough : e.path <+: e'.path
    · obtain ⟨hsound, hretraces⟩ := hc.level_retraces hpos hhalf hB hvisited hthrough
      refine ⟨_, restore_of_isPrefix hthrough, hsound.agree (agree_clearPending _).symm, ?_⟩
      exact hretraces.trans (.of_agree (agree_clearPending _).symm)
    · refine hc.replayed hpos hhalf hB hvisited ?_
      by_contra hlong
      exact hthrough (isPrefix_of_le_commonLength (List.prefix_refl e.path) (by simp [hc.path] at hlong ⊢; omega))

omit hpos hhalf in
/-- Entering a child. -/
theorem restore_below (hB : B.frames ≠ []) (n : NodeId) (delta : NodeId → List (BoundChange (Exact ℚ))) :
    Agree (B.restore (B.path ++ [n]) delta).2 ((B.push n).replay (delta n)).2 := by
  have hcommon : commonLength B.path (B.path ++ [n]) = B.path.length := commonLength_of_isPrefix (List.prefix_append _ _)
  have hstart : B.leaveTo B.path.length = B := by rw [length_path, leaveTo_length hB]
  unfold Domains.restore
  simp only [hcommon, hstart, List.drop_left]
  exact agree_clearPending _

omit hpos hhalf in
/-- Requests at a child keep the level of its parent. -/
theorem moves_below (hB : B.frames ≠ []) {n : NodeId} {earlier : NodeId → List (BoundChange (Exact ℚ))}
    (hmoves : (B.restore (B.path ++ [n]) earlier).2.Moves e) :
    e.path = B.path ++ [n] ∧ Agree (e.leaveTo B.path.length) B := by
  have hlevel : Agree (B.leaveTo B.frames.length) B := by
    rw [leaveTo_length hB]
    rfl
  have hbelow : e.path = B.path ++ [n] ∧ Below B e := by
    induction hmoves with
    | refl => exact ⟨restore_path .., .restore hB (List.prefix_refl _) hlevel n []⟩
    | tail _ hmove ih => exact ⟨hmove.path.trans ih.1, ih.2.move hB hmove⟩
  exact ⟨hbelow.1, length_path B ▸ hbelow.2.level⟩

/-- **Saved nodes** can be come back to. -/
theorem Saved.comesBack (h : Saved root delta d e) (hd : d.path = [root]) (hsound : Sound t Z d) :
    ComesBack t Z root delta e := by
  induction h with
  | @visit path hpath hok =>
    have hsaved : Sound t Z (d.restore path delta).2 := hsound.restore hpos hhalf hd hpath
    refine ⟨hsaved, by rwa [restore_path], fun e' he' => ⟨(d.restore path delta).2, ?_, hsaved, .refl _⟩⟩
    have hvisited : Visited root delta d e' := .trans (.restore .start hpath) he'
    rw [restore_path, hvisited.restore_eq (hd ▸ List.prefix_refl _) hpath hok, ← hok]
  | @enter B _ n hcalm ih =>
    have hB := frames_ne_nil ih.rooted
    have hentered := restore_below hB n delta
    obtain ⟨hpath, hlevel⟩ := moves_below hB (.refl : (B.restore (B.path ++ [n]) delta).2.Moves _)
    refine Child.comesBack hpos hhalf ⟨?_, hpath, hlevel, hcalm, .of_agree hentered⟩ ih
    exact ((ih.sound.push n).replay hpos hhalf _).agree hentered.symm
  | @save B e _ n earlier hmoves hstored ih =>
    have hB := frames_ne_nil ih.rooted
    obtain ⟨hpath, hlevel⟩ := moves_below hB hmoves
    have hreplayed : (B.push n).Moves ((B.push n).replay (earlier n)).2 :=
      replay_keeps (P := (B.push n).Moves) (fun c _ _ hX => .tail hX (.request _ c.var c.kind c.new c.reason)) .refl
    have hrequests : (B.push n).Moves e := (hreplayed.tail (.agree (restore_below hB n earlier).symm)).trans hmoves
    have hrecorded := Replayable.moves hpos hhalf (ih.sound.push n) (List.cons_ne_nil _ _) rfl hrequests
    refine Child.comesBack hpos hhalf ⟨hrecorded.sound, hpath, hlevel, ?_, ?_⟩ ih
    · rw [hstored]
      exact hrecorded.calm
    · rw [hstored]
      exact hrecorded.retraces

/-- **Coming back to a saved node**, whichever nodes were visited since and whatever the answers
were, succeeds. All bounds are as they were, apart from those of variables, not integral, that
had been closed to a point: they are as tight, or looser by less than counts as a tightening. -/
theorem restore_of_saved (hd : d.path = [root]) (hsound : Sound t Z d) (h : Saved root delta d e) {e' : Domains (Exact ℚ)}
    (hvisits : Visited root delta e e') :
    (e'.restore e.path delta).1 = true ∧ Retraces e (e'.restore e.path delta).2 := by
  obtain ⟨D, hback, -, hretraces⟩ := (h.comesBack hpos hhalf hd hsound).back e' hvisits
  rw [hback]
  exact ⟨rfl, hretraces⟩

end Children

end BranchAndCut.Domains

namespace BranchAndCut.Domains

/-- A store at the root. The second domain is not empty, but as narrow as half of what counts
as a tightening. -/
def narrow : Domains (Exact ℚ) :=
  (new #[.fin 0, .fin 0] #[.fin 4, .fin (1 / 2000000000)] #[true, false] (.fin (1 / 1000000))).push 0

/-- The store at a child, where both domains were tightened. -/
def narrowed : Domains (Exact ℚ) :=
  (((narrow.restore [0, 1] fun _ => []).2.tighten 1 .lower (.fin (1 / 500000000)) .formulation).2.tighten 0 .upper
    (.fin (5 / 2)) .formulation).2

def narrowedDelta : NodeId → List (BoundChange (Exact ℚ))
  | 1 => narrowed.focusDelta
  | _ => []

theorem narrow_sound : Sound (.fin (1 / 1000000)) (· = 0) narrow := by
  unfold narrow
  refine Sound.push ?_ 0
  refine ⟨⟨rfl, ?_, ?_, ?_, fun _ _ h => h.elim⟩, fun v hv => ?_, fun v => ?_, fun v => ?_⟩
  · rintro v rfl
    decide
  · rintro v rfl
    rfl
  · rintro v rfl
    refine ⟨by decide +kernel, by decide +kernel, by decide +kernel, ?_, ?_⟩
    · exact ⟨Exact.whole_fin.mpr (by norm_num), Exact.whole_fin.mpr (by norm_num)⟩
    · exact ⟨Exact.whole_fin.mpr (by norm_num), Exact.whole_fin.mpr (by norm_num)⟩
  · by_contra hne
    cases v with
    | zero => exact hne rfl
    | succ v => cases v <;> simp [isIntegral, new] at hv
  · cases v with
    | zero => exact ⟨Exact.fin_ne_nan _, Exact.fin_ne_nan _⟩
    | succ v => cases v <;> exact ⟨Exact.fin_ne_nan _, Exact.fin_ne_nan _⟩
  · cases v with
    | zero => decide +kernel
    | succ v =>
      cases v with
      | zero => decide +kernel
      | succ v => exact (by decide +kernel : ¬ (0 : Exact ℚ) + .fin (1 / 1000000) < 0)

/-- The child is left for another one, and for one more below it. -/
theorem restore_of_saved_narrowed :
    let e' := ((narrowed.restore [0, 2] narrowedDelta).2.restore [0, 2, 3] narrowedDelta).2
    Saved 0 narrowedDelta narrow narrowed ∧ (e'.restore narrowed.path narrowedDelta).1 = true ∧
      Retraces narrowed (e'.restore narrowed.path narrowedDelta).2 := by
  intro e'
  have hroot : narrow.restore [0] narrowedDelta = (true, narrow) := restore_of_isPrefix (List.prefix_refl narrow.path)
  have hsaved : Saved 0 narrowedDelta narrow narrowed := by
    have hvisit : Saved 0 narrowedDelta narrow (narrow.restore [0] narrowedDelta).2 := .visit rfl (by rw [hroot])
    rw [hroot] at hvisit
    exact hvisit.save (.tail (.tail .refl (.request ..)) (.request ..)) rfl
  have hvisits : Visited 0 narrowedDelta narrowed e' := .restore (.restore .start rfl) rfl
  obtain ⟨hanswer, hretraces⟩ := restore_of_saved (by decide +kernel) (by decide +kernel) rfl narrow_sound hsaved hvisits
  exact ⟨hsaved, hanswer, hretraces⟩

/-- The bound that closed the second domain is lost. -/
theorem restore_loses_collapse :
    let back := (narrowed.restore [0, 2] narrowedDelta).2.restore [0, 1] narrowedDelta
    (narrowed.restore [0, 2] narrowedDelta).1 = true ∧ back.1 = true ∧ narrowed.lb 1 = narrowed.ub 1 ∧
      back.2.ub 1 = narrowed.ub 1 ∧ back.2.lb 1 = 0 ∧ narrowed.lb 1 = .fin (1 / 2000000000) := by
  decide +kernel

end BranchAndCut.Domains

import BranchAndCut.Model.Problem
import BranchAndCut.Proofs.Arrays

/-! # Groups laid end to end

The active variables are in one array, group after group, and a table tells where each of
them is. A variable that comes or goes takes a hole through the later groups, each of
which is rotated by one member, and the table follows every move. -/

namespace BranchAndCut

theorem VarType.group_injective {t u : VarType} (h : t.group = u.group) : t = u := by
  cases t <;> cases u <;> first | rfl | cases h

namespace Groups

variable {g g' : Groups} {v w : VarId} {t u : VarType} {hole : Nat} {A B G : List VarId} {H : VarType → List VarId}

/-! ## Types in the order of their groups -/

theorem all_eq (t : VarType) : VarType.all = earlier t ++ t :: later t := by cases t <;> rfl

theorem mem_earlier : u ∈ earlier t ↔ u.group < t.group := by cases u <;> cases t <;> decide

theorem mem_later : u ∈ later t ↔ t.group < u.group := by cases u <;> cases t <;> decide

theorem count_congr (h : g'.counts = g.counts) (u : VarType) : g'.count u = g.count u := by
  unfold count
  rw [h]

theorem start_congr (h : g'.counts = g.counts) (u : VarType) : g'.start u = g.start u := by
  unfold start
  rw [funext fun u => count_congr h u]

theorem count_resize (g : Groups) (t u : VarType) (n : Nat) :
    (g.resize t n).count u = if u = t then n else g.count u := by
  unfold resize count
  dsimp only
  rw [Vector.get_eq_getElem, Vector.get_eq_getElem, Vector.getElem_set]
  exact if_congr ⟨fun h => (VarType.group_injective h).symm, fun h => h ▸ rfl⟩ rfl rfl

/-- The groups of these types lie one after another, from a place on. -/
def Consecutive (g : Groups) : Nat → List VarType → Prop
  | _, [] => True
  | n, u :: us => g.start u = n ∧ g.Consecutive (n + g.count u) us

theorem consecutive_later (g : Groups) (t : VarType) : g.Consecutive (g.start t + g.count t) (later t) := by
  cases t <;> simp [later, VarType.all, VarType.group, Consecutive, start, earlier, Nat.add_assoc]

theorem Consecutive.congr (h : g'.counts = g.counts) {n : Nat} {us : List VarType} (hus : g.Consecutive n us) :
    g'.Consecutive n us := by
  induction us generalizing n with
  | nil => trivial
  | cons u us ih => exact ⟨(start_congr h u).trans hus.1, ih (count_congr h u ▸ hus.2)⟩

/-! ## The groups as lists -/

/-- The groups of the array are given lists. -/
structure Laid (g : Groups) (H : VarType → List VarId) : Prop where
  order : g.order.toList = VarType.all.flatMap H
  counts : ∀ u, g.count u = (H u).length

theorem Laid.start_eq (h : g.Laid H) (t : VarType) : g.start t = ((earlier t).flatMap H).length := by
  unfold start
  rw [List.length_flatMap]
  exact congrArg List.sum (List.map_congr_left fun u _ => h.counts u)

theorem Laid.order_eq (h : g.Laid H) (t : VarType) :
    g.order.toList = (earlier t).flatMap H ++ (H t ++ (later t).flatMap H) := by
  rw [h.order, all_eq t, List.flatMap_append, List.flatMap_cons]

theorem Laid.get_eq (h : g.Laid H) (t : VarType) : (g.get t).toList = H t := by
  unfold get
  rw [Array.toList_extract, List.extract_eq_take_drop, Nat.add_sub_cancel_left, h.order_eq t, h.start_eq t,
    List.drop_left, h.counts, List.take_left]

/-- The groups, with another list for one type and changed ones for the later types. -/
def relaid (H : VarType → List VarId) (t : VarType) (own : List VarId) (f : List VarId → List VarId) (u : VarType) :
    List VarId :=
  if u = t then own else if t.group < u.group then f (H u) else H u

theorem flatMap_relaid (H : VarType → List VarId) (t : VarType) (own : List VarId) (f : List VarId → List VarId) :
    VarType.all.flatMap (relaid H t own f) =
      (earlier t).flatMap H ++ (own ++ (later t).flatMap fun u => f (H u)) := by
  rw [all_eq t, List.flatMap_append, List.flatMap_cons]
  congr 1
  · refine List.flatMap_congr fun u hu => ?_
    have hlt := mem_earlier.mp hu
    have hne : u ≠ t := fun heq => Nat.lt_irrefl _ (heq ▸ hlt)
    unfold relaid
    rw [if_neg hne, if_neg (Nat.lt_asymm hlt)]
  congr 1
  · exact if_pos rfl
  · refine List.flatMap_congr fun u hu => ?_
    have hlt := mem_later.mp hu
    have hne : u ≠ t := fun heq => Nat.lt_irrefl _ (heq ▸ hlt)
    unfold relaid
    rw [if_neg hne, if_pos hlt]

/-! ## A hole in the array -/

/-- The table tells the places of the members, and of no other variable. -/
def Tracked (g : Groups) : Prop := ∀ v i, g.position? v = some i ↔ g.order[i]? = some v

/-- The array with a hole in it, and a table that tells the places of the members before and
after the hole, while another variable is on its way. -/
structure Open (g : Groups) (v : VarId) (hole : Nat) (A B : List VarId) : Prop where
  order : ∃ x, g.order.toList = A ++ x :: B
  front : hole = A.length
  tracked : ∀ w i, w ≠ v ∧ g.position? w = some i ↔ i ≠ hole ∧ g.order[i]? = some w

theorem position?_place (g : Groups) (pos : Nat) (v w : VarId) :
    (g.place pos v).position? w = if w = v ∧ v < g.positions.size then some pos else g.position? w :=
  getD_setIfInBounds ..

theorem lt_of_position? {i : Nat} (h : g.position? v = some i) : v < g.positions.size := by
  unfold position? at h
  by_contra hge
  rw [getD_of_size_le _ _ (Nat.not_lt.mp hge)] at h
  cases h

theorem getElem?_place (g : Groups) (pos : Nat) (v : VarId) (i : Nat) (hpos : pos < g.order.size) :
    (g.place pos v).order[i]? = if i = pos then some v else g.order[i]? := by
  refine Array.getElem?_setIfInBounds.trans ?_
  by_cases hi : pos = i
  · rw [if_pos hi, if_pos hi.symm, if_pos hpos]
  · rw [if_neg hi, if_neg (Ne.symm hi)]

theorem Open.lt (h : g.Open v hole A B) : hole < g.order.size := by
  obtain ⟨x, hx⟩ := h.order
  rw [← Array.length_toList, hx, h.front, List.length_append, List.length_cons]
  omega

/-- **A member moves into the hole**, and leaves a hole. -/
theorem Open.tracked_place (h : g.Open v hole A B) {src : Nat} (hw : g.order[src]? = some w) (hsrc : src ≠ hole)
    (x : VarId) (i : Nat) : x ≠ v ∧ (g.place hole w).position? x = some i ↔
      i ≠ src ∧ (g.place hole w).order[i]? = some x := by
  obtain ⟨hne, hpos⟩ := (h.tracked w src).mpr ⟨hsrc, hw⟩
  rw [position?_place, getElem?_place _ _ _ _ h.lt]
  by_cases hx : x = w
  · subst hx
    rw [if_pos ⟨rfl, lt_of_position? hpos⟩, Option.some.injEq, and_iff_right hne]
    refine ⟨fun heq => ⟨heq ▸ hsrc.symm, if_pos heq.symm⟩, fun ⟨hi, hread⟩ => ?_⟩
    by_contra hhole
    rw [if_neg (Ne.symm hhole)] at hread
    have := ((h.tracked x i).mpr ⟨Ne.symm hhole, hread⟩).2
    rw [hpos, Option.some.injEq] at this
    exact hi this.symm
  · rw [if_neg fun hc => hx hc.1, h.tracked x i]
    by_cases hi : i = hole
    · rw [if_pos hi, Option.some.injEq]
      exact ⟨fun hc => absurd hi hc.1, fun hc => absurd hc.2.symm hx⟩
    · rw [if_neg hi]
      refine and_congr_left fun hread => ⟨fun _ heq => ?_, fun _ => hi⟩
      rw [heq, hw, Option.some.injEq] at hread
      exact hx hread.symm

/-- **The variable on its way is put into the hole.** -/
theorem Open.tracked_settle (h : g.Open v hole A B) (hv : v < g.positions.size) : (g.place hole v).Tracked := by
  intro w i
  rw [position?_place, getElem?_place _ _ _ _ h.lt]
  by_cases hw : w = v
  · subst hw
    rw [if_pos ⟨rfl, hv⟩, Option.some.injEq]
    refine ⟨fun heq => if_pos heq.symm, fun hread => ?_⟩
    by_contra hne
    rw [if_neg (Ne.symm hne)] at hread
    exact absurd rfl ((h.tracked w i).mpr ⟨Ne.symm hne, hread⟩).1
  · rw [if_neg fun hc => hw hc.1]
    refine (iff_of_eq (by rw [and_iff_right hw])).symm.trans ((h.tracked w i).trans ?_)
    by_cases hi : i = hole
    · rw [if_pos hi, Option.some.injEq]
      exact ⟨fun hc => absurd hi hc.1, fun heq => absurd heq.symm hw⟩
    · rw [if_neg hi, and_iff_right hi]

/-! ## Shifting a hole -/

/-- The hole moves down to an earlier member. -/
theorem Open.down {C : List VarId} (h : g.Open v hole (A ++ w :: C) B) :
    g.order.getD A.length 0 = w ∧ (g.place hole w).Open v A.length A (C ++ w :: B) := by
  obtain ⟨x, hx⟩ := h.order
  have hread : g.order[A.length]? = some w := by
    rw [← Array.getElem?_toList, hx, List.append_assoc, List.getElem?_append_right (Nat.le_refl _), Nat.sub_self]
    rfl
  refine ⟨by rw [Array.getD_eq_getD_getElem?, hread, Option.getD_some], ⟨w, ?_⟩, rfl, ?_⟩
  · refine Array.toList_setIfInBounds.trans ?_
    rw [hx, h.front, List.set_append_right _ _ (Nat.le_refl _), Nat.sub_self, List.set_cons_zero]
    simp
  · refine h.tracked_place hread ?_
    rw [h.front, List.length_append, List.length_cons]
    omega

/-- The hole moves up to a later member. -/
theorem Open.up {C : List VarId} (h : g.Open v hole A (C ++ w :: B)) :
    g.order.getD (A.length + 1 + C.length) 0 = w ∧
      (g.place hole w).Open v (A.length + 1 + C.length) (A ++ w :: C) B := by
  obtain ⟨x, hx⟩ := h.order
  have hlength : (A ++ x :: C).length = A.length + 1 + C.length := by
    rw [List.length_append, List.length_cons]
    omega
  have hread : g.order[A.length + 1 + C.length]? = some w := by
    rw [← Array.getElem?_toList, hx, ← List.cons_append, ← List.append_assoc, ← hlength,
      List.getElem?_append_right (Nat.le_refl _), Nat.sub_self]
    rfl
  refine ⟨by rw [Array.getD_eq_getD_getElem?, hread, Option.getD_some], ⟨w, ?_⟩, ?_, ?_⟩
  · refine Array.toList_setIfInBounds.trans ?_
    rw [hx, h.front, List.set_append_right _ _ (Nat.le_refl _), Nat.sub_self, List.set_cons_zero]
    simp
  · rw [List.length_append, List.length_cons]
    omega
  · refine h.tracked_place hread ?_
    rw [h.front]
    omega

/-- **A hole moves to the front of a group**, whose first member goes to its end. -/
theorem Open.moveFirst (h : g.Open v hole (A ++ G) B) (hstart : g.start u = A.length) (hcount : g.count u = G.length) :
    (moveFirst u (g, hole)).1.Open v (moveFirst u (g, hole)).2 A (G.rotate 1 ++ B) := by
  unfold Groups.moveFirst
  dsimp only
  rw [hstart, hcount]
  cases G with
  | nil =>
    rw [List.length_nil, if_neg (Nat.lt_irrefl 0)]
    refine ⟨?_, rfl, ?_⟩
    · rw [List.append_nil] at h
      exact h.order
    · rw [← List.append_nil A, ← h.front]
      exact h.tracked
  | cons w G =>
    rw [List.length_cons, if_pos (Nat.zero_lt_succ _), h.down.1]
    simpa using h.down.2

/-- **A hole moves to the end of a group**, whose last member goes to its front. -/
theorem Open.moveLast (h : g.Open v hole A (G ++ B)) (hstart : g.start u = A.length + 1) (hcount : g.count u = G.length) :
    (moveLast (g, hole) u).1.Open v (moveLast (g, hole) u).2 (A ++ G.rotate (G.length - 1)) B := by
  unfold Groups.moveLast
  dsimp only
  rw [hstart, hcount]
  rcases List.eq_nil_or_concat G with rfl | ⟨G, w, rfl⟩
  · rw [List.length_nil, if_pos rfl]
    simpa using h
  · rw [List.concat_eq_append] at h ⊢
    have hlast : A.length + 1 + (G ++ [w]).length - 1 = A.length + 1 + G.length := by
      rw [List.length_append, List.length_singleton]
      omega
    rw [List.append_assoc] at h
    rw [if_neg (by simp), hlast, h.up.1, List.length_append, List.length_singleton,
      Nat.add_sub_cancel, List.rotate_append_length_eq]
    exact h.up.2

theorem counts_moveFirst (u : VarType) (s : Groups × Nat) :
    (moveFirst u s).1.counts = s.1.counts ∧ (moveFirst u s).1.positions.size = s.1.positions.size := by
  unfold moveFirst
  dsimp only
  split
  · exact ⟨rfl, Array.size_setIfInBounds⟩
  · exact ⟨rfl, rfl⟩

theorem counts_moveLast (u : VarType) (s : Groups × Nat) :
    (moveLast s u).1.counts = s.1.counts ∧ (moveLast s u).1.positions.size = s.1.positions.size := by
  unfold moveLast
  dsimp only
  split
  · exact ⟨rfl, rfl⟩
  · exact ⟨rfl, Array.size_setIfInBounds⟩

/-- A hole behind consecutive groups moves in front of them. -/
theorem Open.foldr_moveFirst {us : List VarType} (h : g.Open v hole (A ++ us.flatMap H) B)
    (hus : g.Consecutive A.length us) (hcount : ∀ u, g.count u = (H u).length) :
    let s := us.foldr Groups.moveFirst (g, hole)
    s.1.Open v s.2 A ((us.flatMap fun u => (H u).rotate 1) ++ B) ∧ s.1.counts = g.counts ∧
      s.1.positions.size = g.positions.size := by
  induction us generalizing A with
  | nil => exact ⟨by simpa using h, rfl, rfl⟩
  | cons u us ih =>
    rw [List.flatMap_cons, ← List.append_assoc] at h
    obtain ⟨hopen, hcounts, hsize⟩ := ih h (by rw [List.length_append, ← hcount]; exact hus.2)
    obtain ⟨hcounts', hsize'⟩ := counts_moveFirst u (us.foldr Groups.moveFirst (g, hole))
    refine ⟨?_, hcounts'.trans hcounts, hsize'.trans hsize⟩
    rw [List.flatMap_cons, List.append_assoc]
    exact hopen.moveFirst ((start_congr hcounts u).trans hus.1) ((count_congr hcounts u).trans (hcount u))

/-- A hole in front of consecutive groups moves behind them. -/
theorem Open.foldl_moveLast {us : List VarType} (h : g.Open v hole A (us.flatMap H ++ B))
    (hus : g.Consecutive (A.length + 1) us) (hcount : ∀ u, g.count u = (H u).length) :
    let s := us.foldl Groups.moveLast (g, hole)
    s.1.Open v s.2 (A ++ us.flatMap fun u => (H u).rotate ((H u).length - 1)) B ∧ s.1.counts = g.counts ∧
      s.1.positions.size = g.positions.size := by
  induction us generalizing g hole A with
  | nil => exact ⟨by simpa using h, rfl, rfl⟩
  | cons u us ih =>
    rw [List.flatMap_cons, List.append_assoc] at h
    obtain ⟨hcounts, hsize⟩ := counts_moveLast u (g, hole)
    have hmoved := h.moveLast hus.1 (hcount u)
    have hrest : (Groups.moveLast (g, hole) u).1.Consecutive
        ((A ++ (H u).rotate ((H u).length - 1)).length + 1) us := by
      rw [List.length_append, List.length_rotate, ← hcount, Nat.add_right_comm]
      exact hus.2.congr hcounts
    obtain ⟨hopen, hcounts', hsize'⟩ := ih hmoved hrest fun u => (count_congr hcounts u).trans (hcount u)
    refine ⟨?_, hcounts'.trans hcounts, hsize'.trans hsize⟩
    rw [List.flatMap_cons, ← List.append_assoc]
    exact hopen

/-! ## Variables that come and go -/

/-- The array after a shift, once the size of the group is changed. -/
theorem Laid.relay (h : g.Laid H) (hcounts : g'.counts = g.counts) {own : List VarId} {f : List VarId → List VarId}
    (hf : ∀ l, (f l).length = l.length)
    (horder : g'.order.toList = (earlier t).flatMap H ++ (own ++ (later t).flatMap fun u => f (H u))) :
    (g'.resize t own.length).Laid (relaid H t own f) := by
  refine ⟨horder.trans (flatMap_relaid H t own f).symm, fun u => ?_⟩
  rw [count_resize]
  unfold relaid
  split
  · rfl
  · rw [count_congr hcounts, h.counts]
    split
    · exact (hf _).symm
    · rfl

theorem Tracked.open_push (htracked : g.Tracked) (hout : g.position? v = none) :
    Open { g with order := g.order.push v } v g.order.size g.order.toList [] := by
  refine ⟨⟨v, Array.toList_push⟩, Array.length_toList.symm, fun w i => ?_⟩
  change w ≠ v ∧ g.position? w = some i ↔ i ≠ g.order.size ∧ (g.order.push v)[i]? = some w
  rw [Array.getElem?_push, htracked w i]
  by_cases hi : i = g.order.size
  · rw [if_pos hi, hi, Array.getElem?_eq_none (Nat.le_refl _)]
    exact ⟨fun h => absurd h.2 nofun, fun h => absurd rfl h.1⟩
  · rw [if_neg hi]
    refine and_congr_left fun hread => ⟨fun _ => hi, fun _ heq => ?_⟩
    have hpos := (htracked w i).mpr hread
    rw [heq, hout] at hpos
    cases hpos

/-- **A variable that comes** is the last of its group, and each later group is rotated. -/
theorem insert_spec (h : g.Laid H) (htracked : g.Tracked) (hv : v < g.positions.size) (hout : g.position? v = none) :
    (g.insert t v).Laid (relaid H t (H t ++ [v]) (List.rotate · 1)) ∧ (g.insert t v).Tracked ∧
      (g.insert t v).positions.size = g.positions.size := by
  have hopen := htracked.open_push hout
  rw [h.order_eq t, ← List.append_assoc] at hopen
  have hlength : g.start t + g.count t = ((earlier t).flatMap H ++ H t).length := by
    rw [List.length_append, h.start_eq, h.counts]
  have hconsecutive := g.consecutive_later t
  rw [hlength] at hconsecutive
  have hsame : ({ g with order := g.order.push v } : Groups).counts = g.counts := rfl
  obtain ⟨hshifted, hcounts, hsize⟩ := hopen.foldr_moveFirst (hconsecutive.congr hsame) h.counts
  unfold insert
  dsimp only
  generalize (later t).foldr moveFirst ({ g with order := g.order.push v }, g.order.size) = s
    at hshifted hcounts hsize ⊢
  obtain ⟨g', hole⟩ := s
  dsimp only at hshifted hcounts hsize ⊢
  have hcount : g'.count t + 1 = (H t ++ [v]).length := by
    rw [List.length_append, List.length_singleton, count_congr hcounts, h.counts]
  refine ⟨?_, hshifted.tracked_settle (hsize ▸ hv), Array.size_setIfInBounds.trans hsize⟩
  rw [hcount]
  refine Laid.relay h (show (g'.place hole v).counts = g.counts from hcounts) (fun l => List.length_rotate l 1) ?_
  obtain ⟨x, hx⟩ := hshifted.order
  refine Array.toList_setIfInBounds.trans ?_
  rw [hx, hshifted.front, List.set_append_right _ _ (Nat.le_refl _), Nat.sub_self, List.set_cons_zero]
  simp

/-- The place of a member is where its group tells. -/
theorem Laid.position?_eq (h : g.Laid H) (htracked : g.Tracked) {before after : List VarId}
    (hv : H t = before ++ v :: after) : g.position? v = some ((earlier t).flatMap H ++ before).length := by
  refine (htracked _ _).mpr ?_
  rw [← Array.getElem?_toList, h.order_eq t, hv, List.append_assoc, ← List.append_assoc,
    List.getElem?_append_right (Nat.le_refl _), Nat.sub_self]
  rfl

theorem Tracked.open_member (htracked : g.Tracked) (horder : g.order.toList = A ++ v :: B) :
    g.Open v A.length A B := by
  have hread : g.order[A.length]? = some v := by
    rw [← Array.getElem?_toList, horder, List.getElem?_append_right (Nat.le_refl _), Nat.sub_self]
    rfl
  refine ⟨⟨v, horder⟩, rfl, fun w i => ?_⟩
  rw [htracked w i]
  refine and_congr_left fun hw => not_congr ⟨fun heq => ?_, fun heq => ?_⟩
  · rw [heq] at hw
    have hpos := (htracked v i).mpr hw
    rw [(htracked v _).mpr hread, Option.some.injEq] at hpos
    exact hpos.symm
  · rw [heq, hread, Option.some.injEq] at hw
    exact hw.symm

theorem counts_fill (g : Groups) (pos last : Nat) :
    (g.fill pos last).counts = g.counts ∧ (g.fill pos last).positions.size = g.positions.size := by
  unfold fill
  split
  · exact ⟨rfl, rfl⟩
  · exact ⟨rfl, Array.size_setIfInBounds⟩

/-- A member leaves its place to the last of its group. -/
theorem Laid.open_remove (h : g.Laid H) (htracked : g.Tracked) (hv : v ∈ H t) :
    ∃ pos own, g.position? v = some pos ∧ (H t).Perm (v :: own) ∧
      (g.fill pos (g.start t + g.count t - 1)).Open v (g.start t + g.count t - 1) ((earlier t).flatMap H ++ own)
        ((later t).flatMap H) := by
  obtain ⟨before, after, hsplit⟩ := List.append_of_mem hv
  have horder := h.order_eq t
  rw [hsplit, List.append_assoc, List.cons_append, ← List.append_assoc] at horder
  have hopen := htracked.open_member horder
  have hlast : g.start t + g.count t - 1 = ((earlier t).flatMap H ++ before).length + after.length := by
    rw [h.start_eq, h.counts, hsplit, List.length_append, List.length_append, List.length_cons]
    omega
  rw [hlast]
  unfold fill
  rcases List.eq_nil_or_concat after with rfl | ⟨after, w, rfl⟩
  · refine ⟨_, before, h.position?_eq htracked hsplit, ?_, ?_⟩
    · rw [hsplit]
      exact List.perm_append_singleton v before
    · rw [List.length_nil, Nat.add_zero, if_pos rfl]
      exact hopen
  · rw [List.concat_eq_append] at hsplit hopen ⊢
    rw [List.append_assoc, List.singleton_append] at hopen
    obtain ⟨hread, hmoved⟩ := hopen.up
    refine ⟨_, before ++ w :: after, h.position?_eq htracked hsplit, ?_, ?_⟩
    · rw [hsplit]
      refine List.perm_middle.trans (List.Perm.cons v (List.Perm.append_left before ?_))
      exact List.perm_append_singleton w after
    · have hsum : ((earlier t).flatMap H ++ before).length + (after ++ [w]).length =
          ((earlier t).flatMap H ++ before).length + 1 + after.length := by
        rw [@List.length_append _ after, List.length_singleton]
        omega
      rw [hsum, if_neg (by omega), hread, ← List.append_assoc]
      exact hmoved

/-- **The last place is given up** by the variable that goes. -/
theorem Open.tracked_pop (h : g.Open v hole A []) :
    Tracked { g with order := g.order.pop, positions := g.positions.setIfInBounds v none } := by
  intro w i
  obtain ⟨x, hx⟩ := h.order
  have hsize : g.order.size = hole + 1 := by
    rw [← Array.length_toList, hx, h.front, List.length_append, List.length_singleton]
  have hpop : g.order.pop[i]? = some w ↔ i ≠ hole ∧ g.order[i]? = some w := by
    rw [Array.getElem?_pop, hsize, Nat.add_sub_cancel]
    by_cases hi : i < hole
    · rw [if_pos hi]
      exact (and_iff_right (Nat.ne_of_lt hi)).symm
    · rw [if_neg hi]
      refine ⟨nofun, fun ⟨hne, hread⟩ => ?_⟩
      rw [Array.getElem?_eq_none (by omega)] at hread
      cases hread
  refine Iff.trans ?_ ((h.tracked w i).trans hpop.symm)
  refine (iff_of_eq (congrArg (· = some i) (getD_setIfInBounds ..))).trans ?_
  by_cases hw : w = v
  · by_cases hlt : v < g.positions.size
    · rw [if_pos ⟨hw, hlt⟩]
      exact ⟨nofun, fun h => absurd hw h.1⟩
    · rw [if_neg fun hc => hlt hc.2]
      refine ⟨fun hread => absurd (lt_of_position? (hw ▸ hread)) hlt, And.right⟩
  · rw [if_neg fun hc => hw hc.1]
    exact (and_iff_right hw).symm

/-- **A variable that goes** leaves its place to the last of its group, and each later group
is rotated. -/
theorem remove_spec (h : g.Laid H) (htracked : g.Tracked) (hv : v ∈ H t) :
    ∃ own, (H t).Perm (v :: own) ∧ (g.remove t v).Laid (relaid H t own fun l => l.rotate (l.length - 1)) ∧
      (g.remove t v).Tracked ∧ (g.remove t v).positions.size = g.positions.size := by
  obtain ⟨pos, own, hpos, hperm, hopen⟩ := h.open_remove htracked hv
  obtain ⟨hcounts, hsize⟩ := g.counts_fill pos (g.start t + g.count t - 1)
  refine ⟨own, hperm, ?_⟩
  unfold remove
  rw [hpos]
  dsimp only
  have hlength : g.start t + g.count t = ((earlier t).flatMap H ++ own).length + 1 := by
    rw [h.start_eq, h.counts, hperm.length_eq, List.length_append, List.length_cons, Nat.add_assoc]
  have hconsecutive := g.consecutive_later t
  rw [hlength] at hconsecutive
  generalize g.fill pos (g.start t + g.count t - 1) = filled at hopen hcounts hsize ⊢
  rw [← List.append_nil ((later t).flatMap H)] at hopen
  obtain ⟨hshifted, hcounts', hsize'⟩ :=
    hopen.foldl_moveLast (hconsecutive.congr hcounts) fun u => (count_congr hcounts u).trans (h.counts u)
  generalize (later t).foldl moveLast (filled, g.start t + g.count t - 1) = s at hshifted hcounts' hsize' ⊢
  obtain ⟨g', hole⟩ := s
  dsimp only at hshifted hcounts' hsize' ⊢
  have hcount : g'.count t - 1 = own.length := by
    rw [count_congr (hcounts'.trans hcounts), h.counts, hperm.length_eq, List.length_cons, Nat.add_sub_cancel]
  refine ⟨?_, hshifted.tracked_pop, Array.size_setIfInBounds.trans (hsize'.trans hsize)⟩
  rw [hcount]
  have hsame : ({ g' with order := g'.order.pop, positions := g'.positions.setIfInBounds v none } : Groups).counts =
      g.counts := hcounts'.trans hcounts
  refine h.relay hsame (fun l => List.length_rotate ..) ?_
  obtain ⟨x, hx⟩ := hshifted.order
  refine Array.toList_pop.trans ?_
  rw [hx, List.dropLast_concat, List.append_assoc]

/-! ## Groups in order -/

/-- The array holds the groups and nothing else, and the table follows it. -/
structure Wf (g : Groups) : Prop where
  laid : g.Laid fun u => (g.get u).toList
  tracked : g.Tracked

theorem Laid.wf (h : g.Laid H) (htracked : g.Tracked) : g.Wf := by
  refine ⟨?_, htracked⟩
  rw [funext h.get_eq]
  exact h

theorem new_wf : ({} : Groups).Wf := by
  refine Laid.wf (H := fun _ => []) ⟨rfl, fun u => by cases u <;> rfl⟩ fun v i => ?_
  exact ⟨nofun, nofun⟩

theorem Wf.nodup_order (h : g.Wf) : g.order.toList.Nodup := by
  refine List.nodup_iff_injective_getElem.mpr fun i j heq => Fin.ext ?_
  have hpos : ∀ k : Fin g.order.toList.length, g.position? g.order.toList[k] = some k.val := fun k => by
    refine (h.tracked _ _).mpr ?_
    rw [← Array.getElem?_toList]
    exact List.getElem?_eq_getElem k.isLt
  have := hpos i
  rw [show g.order.toList[i] = g.order.toList[j] from heq, hpos j, Option.some.injEq] at this
  exact this.symm

theorem Wf.nodup (h : g.Wf) (u : VarType) : (g.get u).toList.Nodup := by
  have := h.nodup_order
  rw [h.laid.order_eq u] at this
  exact this.of_append_right.of_append_left

theorem Wf.mem_order (h : g.Wf) : v ∈ g.order ↔ ∃ u, v ∈ g.get u := by
  have hall : ∀ u, u ∈ VarType.all := fun u => by cases u <;> decide
  rw [← Array.mem_toList_iff, h.laid.order, List.mem_flatMap]
  exact exists_congr fun u => (and_iff_right (hall u)).trans Array.mem_toList_iff

/-- The active variables are those with a place. -/
theorem Wf.isSome_position? (h : g.Wf) : (g.position? v).isSome = true ↔ ∃ u, v ∈ g.get u := by
  rw [← h.mem_order, Option.isSome_iff_exists, Array.mem_iff_getElem?]
  exact exists_congr fun i => h.tracked v i

theorem Wf.extend (h : g.Wf) : g.extend.Wf := by
  refine ⟨⟨h.laid.order, h.laid.counts⟩, fun v i => ?_⟩
  refine Iff.trans (iff_of_eq (congrArg (· = some i) ?_)) (h.tracked v i)
  refine (getD_push ..).trans ?_
  split
  · next heq =>
    unfold position?
    rw [heq, getD_of_size_le _ _ (Nat.le_refl _)]
  · rfl

theorem perm_relaid {own own' : List VarId} {f : List VarId → List VarId} (hown : own.Perm own')
    (hf : ∀ l, (f l).Perm l) : (relaid H t own f u).Perm (if u = t then own' else H u) := by
  unfold relaid
  split
  · exact hown
  · split
    · exact hf _
    · exact .refl _

/-- **A variable that comes** joins its group, and no other one changes its members. -/
theorem Wf.insert (h : g.Wf) (hv : v < g.positions.size) (hout : g.position? v = none) :
    (g.insert t v).Wf ∧ (g.insert t v).positions.size = g.positions.size ∧
      ∀ u, ((g.insert t v).get u).toList.Perm (if u = t then v :: (g.get u).toList else (g.get u).toList) := by
  obtain ⟨hlaid, htracked, hsize⟩ := insert_spec (t := t) h.laid h.tracked hv hout
  refine ⟨hlaid.wf htracked, hsize, fun u => ?_⟩
  rw [hlaid.get_eq u]
  refine (perm_relaid (List.perm_append_singleton v _) fun l => List.rotate_perm l 1).trans ?_
  split
  · next heq => rw [heq]
  · exact .refl _

/-- **A variable that goes** leaves its group, and no other one changes its members. -/
theorem Wf.remove (h : g.Wf) (hv : v ∈ g.get t) :
    (g.remove t v).Wf ∧ (g.remove t v).positions.size = g.positions.size ∧
      ∀ u, ((g.remove t v).get u).toList.Perm (if u = t then (g.get u).toList.erase v else (g.get u).toList) := by
  obtain ⟨own, hperm, hlaid, htracked, hsize⟩ := remove_spec h.laid h.tracked (Array.mem_toList_iff.mpr hv)
  refine ⟨hlaid.wf htracked, hsize, fun u => ?_⟩
  rw [hlaid.get_eq u]
  have hown : own.Perm ((g.get t).toList.erase v) := by
    have := (hperm.erase v).symm
    rwa [List.erase_cons_head] at this
  refine (perm_relaid hown fun l => List.rotate_perm l _).trans ?_
  split
  · next heq => rw [heq]
  · exact .refl _

theorem Wf.mem_insert (h : g.Wf) (hv : v < g.positions.size) (hout : g.position? v = none) :
    w ∈ (g.insert t v).get u ↔ w ∈ g.get u ∨ u = t ∧ w = v := by
  rw [← Array.mem_toList_iff, ((h.insert hv hout).2.2 u).mem_iff, ← Array.mem_toList_iff]
  split
  · next heq => simp [heq, or_comm]
  · next hne => simp [hne]

theorem Wf.mem_remove (h : g.Wf) (hv : v ∈ g.get t) :
    w ∈ (g.remove t v).get u ↔ w ∈ g.get u ∧ ¬ (u = t ∧ w = v) := by
  rw [← Array.mem_toList_iff, ((h.remove hv).2.2 u).mem_iff, ← Array.mem_toList_iff]
  split
  · next heq =>
    rw [(h.nodup u).mem_erase_iff]
    simp [heq, and_comm]
  · next hne => simp [hne]

end Groups

end BranchAndCut

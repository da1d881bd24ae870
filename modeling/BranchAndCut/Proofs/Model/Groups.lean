import BranchAndCut.Proofs.Arrays
import BranchAndCut.Proofs.Domain.Whole
import BranchAndCut.Proofs.Model.Layout
import BranchAndCut.Proofs.Model.Problem

/-! # Variables and their groups

A variable is in the group of its type until it is taken out as fixed, and no change to
the groups loses another one. In a problem as it is built, every variable is in its group,
and the bounds of integral variables are whole. -/

namespace BranchAndCut

/-- The bounds of a variable are defined, and whole where they are rounded. -/
structure Variable.Sound {K : Type} [Scalar K] (x : Variable K) : Prop where
  defined : Scalar.isNaN x.lower = false ∧ Scalar.isNaN x.upper = false
  whole : x.type.isIntegral = true → Scalar.Whole x.lower ∧ Scalar.Whole x.upper

/-! ## Problems as they are built -/

namespace Problem

variable {K : Type} [Scalar K] {p q : Problem K} {v w : VarId} {t u : VarType} {lower upper : K}

/-- The variables after one was added. -/
theorem addVar_vars {name : String} {obj : K} (hadd : p.addVar name t lower upper obj = .ok (v, q)) (w : VarId) :
    q.var w = if w = p.numVars then ⟨name, t, obj, (normalize t lower upper).1, (normalize t lower upper).2⟩
      else p.var w := by
  obtain ⟨-, -, rfl⟩ := addVar_spec hadd
  exact getD_push ..

/-- What holds of the variables holds after one was added. -/
theorem forall_addVar {P : Variable K → Prop} (h : ∀ w < p.numVars, P (p.var w)) {name : String} {obj : K}
    (hadd : p.addVar name t lower upper obj = .ok (v, q))
    (hnew : P ⟨name, t, obj, (normalize t lower upper).1, (normalize t lower upper).2⟩) :
    ∀ w < q.numVars, P (q.var w) := by
  intro w hw
  rw [addVar_vars hadd w]
  split
  · exact hnew
  · next hne =>
    rw [addVar_numVars hadd] at hw
    exact h w (Nat.lt_of_le_of_ne (Nat.le_of_lt_succ hw) hne)

/-- The groups hold variables of the problem, each in the group of its type. -/
structure Partitioned (p : Problem K) : Prop where
  groups : p.groups.Wf
  known : p.groups.positions.size = p.numVars
  typed : ∀ {v u}, v ∈ p.groups.get u → (p.var v).type = u

namespace Partitioned

theorem lt (h : p.Partitioned) (hv : v ∈ p.groups.get u) : v < p.numVars := by
  obtain ⟨i, hi⟩ := Option.isSome_iff_exists.mp (h.groups.isSome_position?.mpr ⟨u, hv⟩)
  exact h.known ▸ Groups.lt_of_position? hi

theorem isActive_iff (h : p.Partitioned) : p.isActive v = true ↔ v ∈ p.groups.get (p.var v).type := by
  refine h.groups.isSome_position?.trans ⟨fun ⟨u, hu⟩ => ?_, fun hv => ⟨_, hv⟩⟩
  rwa [h.typed hu]

theorem branchable_eq (h : p.Partitioned) :
    p.branchable = (p.groups.get .binary).toList ++ (p.groups.get .integer).toList := by
  unfold branchable order
  rw [h.groups.laid.order, h.groups.laid.counts, h.groups.laid.counts, ← List.length_append]
  show List.take _ (_ ++ (_ ++ _)) = _
  rw [← List.append_assoc, List.take_left]

/-- **The variables to branch on** are the active binary and integer ones. -/
theorem mem_branchable (h : p.Partitioned) :
    v ∈ p.branchable ↔ p.isActive v = true ∧ (p.var v).type.isBranchable = true := by
  rw [h.branchable_eq, List.mem_append, Array.mem_toList_iff, Array.mem_toList_iff, h.isActive_iff]
  refine ⟨fun hv => ?_, fun ⟨hv, htype⟩ => ?_⟩
  · rcases hv with hv | hv <;> · rw [h.typed hv]; exact ⟨hv, rfl⟩
  · cases ht : (p.var v).type with
    | binary => exact .inl (ht ▸ hv)
    | integer => exact .inr (ht ▸ hv)
    | _ =>
      rw [ht] at htype
      cases htype

theorem new (name : String) : (new name : Problem K).Partitioned := by
  refine ⟨Groups.new_wf, rfl, fun {v u} hv => ?_⟩
  have hnone : ({} : Groups).get u = #[] := by cases u <;> rfl
  exact absurd (hnone ▸ hv) (Array.not_mem_empty v)

/-- **A new variable** is in the group of its type. -/
theorem addVar (h : p.Partitioned) {name : String} {obj : K} (hadd : p.addVar name t lower upper obj = .ok (v, q)) :
    q.Partitioned ∧ ∀ w u, w ∈ q.groups.get u ↔ w ∈ p.groups.get u ∨ u = t ∧ w = p.numVars := by
  have hvar := addVar_vars hadd
  obtain ⟨-, -, rfl⟩ := addVar_spec hadd
  have hlt : p.numVars < p.groups.extend.positions.size := by
    rw [← h.known]
    exact Nat.lt_of_lt_of_eq (Nat.lt_succ_self _) (Array.size_push _).symm
  have hout : p.groups.extend.position? p.numVars = none := by
    refine (getD_push ..).trans (if_pos h.known.symm)
  obtain ⟨hwf, hsize, -⟩ := h.groups.extend.insert (t := t) hlt hout
  have hmem : ∀ w u, w ∈ (p.groups.extend.insert t p.numVars).get u ↔
      w ∈ p.groups.get u ∨ u = t ∧ w = p.numVars := fun w u => h.groups.extend.mem_insert hlt hout
  refine ⟨⟨hwf, ?_, fun {w u} hw => ?_⟩, hmem⟩
  · rw [hsize]
    refine (Array.size_push _).trans ?_
    rw [h.known]
    exact (Array.size_push _).symm
  · rw [hvar]
    rcases (hmem w u).mp hw with hold | ⟨rfl, rfl⟩
    · rw [if_neg (Nat.ne_of_lt (h.lt hold))]
      exact h.typed hold
    · rw [if_pos rfl]

theorem mem_remove (h : p.Partitioned) (hv : v ∈ p.groups.get (p.var v).type) :
    w ∈ (p.groups.remove (p.var v).type v).get u ↔ w ∈ p.groups.get u ∧ w ≠ v := by
  refine (h.groups.mem_remove hv).trans (and_congr_right fun hw => not_congr ?_)
  refine ⟨And.right, fun heq => ⟨?_, heq⟩⟩
  rw [← heq, h.typed hw]

/-- **A variable that is fixed** leaves its group, and only it. -/
theorem compact (h : p.Partitioned) (v : VarId) :
    (p.compact v).Partitioned ∧ ∀ w u, w ∈ (p.compact v).groups.get u ↔ w ∈ p.groups.get u ∧ w ≠ v := by
  unfold Problem.compact
  by_cases hactive : p.isActive v = true
  · rw [if_pos hactive]
    have hv := h.isActive_iff.mp hactive
    obtain ⟨hwf, hsize, -⟩ := h.groups.remove hv
    exact ⟨⟨hwf, hsize.trans h.known, fun hw => h.typed ((h.mem_remove hv).mp hw).1⟩, fun w u => h.mem_remove hv⟩
  · rw [if_neg hactive]
    refine ⟨h, fun w u => (and_iff_left_of_imp fun hw heq => hactive ?_).symm⟩
    rw [← heq, h.isActive_iff, h.typed hw]
    exact hw

theorem compactAll (h : p.Partitioned) (fixed : List VarId) :
    (fixed.foldl Problem.compact p).Partitioned ∧
      ∀ w u, w ∈ (fixed.foldl Problem.compact p).groups.get u ↔ w ∈ p.groups.get u ∧ w ∉ fixed := by
  induction fixed generalizing p with
  | nil => exact ⟨h, fun w u => by simp⟩
  | cons v fixed ih =>
    obtain ⟨hfirst, hmem⟩ := h.compact v
    obtain ⟨hall, hmem'⟩ := ih hfirst
    refine ⟨hall, fun w u => (hmem' w u).trans ?_⟩
    rw [hmem, List.mem_cons, not_or, and_assoc]

end Partitioned

theorem changeType_spec (hchange : p.changeType v t = .ok q) : q = p ∨ q = { p with
    vars := p.vars.modify v fun x => { x with
      type := t
      lower := (normalize t (p.var v).lower (p.var v).upper).1
      upper := (normalize t (p.var v).lower (p.var v).upper).2 }
    groups := if p.isActive v then (p.groups.remove (p.var v).type v).insert t v else p.groups } := by
  unfold Problem.changeType at hchange
  dsimp only at hchange
  by_cases hsame : (p.var v).type = t
  · rw [if_pos hsame] at hchange
    cases hchange
    exact .inl rfl
  rw [if_neg hsame] at hchange
  by_cases hrefused : (t = .binary && (decide ((p.var v).lower < -0.5) || decide (1.5 < (p.var v).upper))) = true
  · rw [if_pos hrefused] at hchange
    cases hchange
  rw [if_neg hrefused] at hchange
  cases hchange
  exact .inr rfl

theorem var_modify (hv : v < p.numVars) (f : Variable K → Variable K) (groups : Groups) (w : VarId) :
    ({ p with vars := p.vars.modify v f, groups } : Problem K).var w = if w = v then f (p.var w) else p.var w := by
  refine (getD_modify ..).trans ?_
  by_cases hw : w = v
  · rw [if_pos ⟨hw, hv⟩, if_pos hw]
    rfl
  · rw [if_neg fun hc => hw hc.1, if_neg hw]
    rfl

/-- What holds of the variables holds after the type of one was changed. -/
theorem forall_changeType {P : Variable K → Prop} (h : ∀ w < p.numVars, P (p.var w)) (hv : v < p.numVars)
    (hchange : p.changeType v t = .ok q) (hnew : ∀ x : Variable K, P x →
      P { x with type := t, lower := (normalize t x.lower x.upper).1, upper := (normalize t x.lower x.upper).2 }) :
    ∀ w < q.numVars, P (q.var w) := by
  rcases changeType_spec hchange with rfl | rfl
  · exact h
  intro w hw
  have hsize : (p.vars.modify v fun x => { x with
      type := t
      lower := (normalize t (p.var v).lower (p.var v).upper).1
      upper := (normalize t (p.var v).lower (p.var v).upper).2 }).size = p.numVars := Array.size_modify
  rw [var_modify hv]
  split
  · next heq =>
    rw [heq]
    exact hnew _ (h v hv)
  · exact h w (hsize ▸ hw)

/-- **A variable of another type** moves from group to group, if it is active. -/
theorem Partitioned.regroup (h : p.Partitioned) (hv : v < p.numVars) {groups : Groups}
    (hgroups : (if p.isActive v then (p.groups.remove (p.var v).type v).insert t v else p.groups) = groups) :
    groups.Wf ∧ groups.positions.size = p.groups.positions.size ∧
      ∀ w u, w ∈ groups.get u ↔ if w = v then p.isActive v = true ∧ u = t else w ∈ p.groups.get u := by
  by_cases hactive : p.isActive v = true
  · rw [if_pos hactive] at hgroups
    subst hgroups
    have hmember := h.isActive_iff.mp hactive
    obtain ⟨hwf, hpositions, -⟩ := h.groups.remove hmember
    have hlt : v < (p.groups.remove (p.var v).type v).positions.size := by rwa [hpositions, h.known]
    have hout : (p.groups.remove (p.var v).type v).position? v = none := by
      refine Option.not_isSome_iff_eq_none.mp fun hsome => ?_
      obtain ⟨u, hu⟩ := hwf.isSome_position?.mp hsome
      exact ((h.mem_remove hmember).mp hu).2 rfl
    obtain ⟨hwf', hpositions', -⟩ := hwf.insert (t := t) hlt hout
    refine ⟨hwf', hpositions'.trans hpositions, fun w u => (hwf.mem_insert hlt hout).trans ?_⟩
    rw [h.mem_remove hmember]
    split
    · next heq => simp [heq, hactive]
    · next hne => simp [hne]
  · rw [if_neg hactive] at hgroups
    subst hgroups
    refine ⟨h.groups, rfl, fun w u => ?_⟩
    split
    · next heq =>
      refine ⟨fun hw => absurd (h.isActive_iff.mpr ?_) hactive, fun hc => absurd hc.1 hactive⟩
      rw [← heq, h.typed hw]
      exact hw
    · rfl

theorem Partitioned.changeType (h : p.Partitioned) (hv : v < p.numVars) (hchange : p.changeType v t = .ok q) :
    q.Partitioned ∧ q.numVars = p.numVars ∧ ∀ w, q.isActive w = p.isActive w := by
  rcases changeType_spec hchange with rfl | rfl
  · exact ⟨h, rfl, fun _ => rfl⟩
  generalize normalize t (p.var v).lower (p.var v).upper = bounds
  generalize hgroups : (if p.isActive v then (p.groups.remove (p.var v).type v).insert t v else p.groups) = groups
  have hvar := p.var_modify hv (fun x => { x with type := t, lower := bounds.1, upper := bounds.2 }) groups
  have hsize : (p.vars.modify v fun x => { x with type := t, lower := bounds.1, upper := bounds.2 }).size = p.numVars :=
    Array.size_modify
  obtain ⟨hwf, hpositions, hmem⟩ := h.regroup hv hgroups
  refine ⟨⟨hwf, hpositions.trans (h.known.trans hsize.symm), fun {w u} hw => ?_⟩, hsize, fun w => ?_⟩
  · rw [hvar]
    have hw := (hmem w u).mp hw
    by_cases heq : w = v
    · rw [if_pos heq] at hw ⊢
      exact hw.2.symm
    · rw [if_neg heq] at hw ⊢
      exact h.typed hw
  · refine Bool.eq_iff_iff.mpr (hwf.isSome_position?.trans (Iff.trans ?_ h.groups.isSome_position?.symm))
    rw [exists_congr (hmem w)]
    by_cases heq : w = v
    · rw [exists_congr fun u => iff_of_eq (if_pos heq), heq, ← h.groups.isSome_position?]
      exact ⟨fun ⟨u, hu⟩ => hu.1, fun hactive => ⟨t, hactive, rfl⟩⟩
    · rw [exists_congr fun u => iff_of_eq (if_neg heq)]

/-- Every variable is active, and its bounds are as they should be. -/
structure Tidy (p : Problem K) : Prop where
  partitioned : p.Partitioned
  active : ∀ v < p.numVars, p.isActive v = true
  bounds : ∀ v < p.numVars, (p.var v).Sound

theorem Tidy.defined (h : p.Tidy) (v : VarId) (hv : v < p.numVars) :
    Scalar.isNaN (p.var v).lower = false ∧ Scalar.isNaN (p.var v).upper = false := (h.bounds v hv).defined

theorem Tidy.whole (h : p.Tidy) (v : VarId) (hv : v < p.numVars) (hintegral : p.isIntegral v = true) :
    Scalar.Whole (p.var v).lower ∧ Scalar.Whole (p.var v).upper := (h.bounds v hv).whole hintegral

theorem new_tidy (name : String) : (new name : Problem K).Tidy :=
  ⟨.new name, fun _ h => absurd h (Nat.not_lt_zero _), fun _ h => absurd h (Nat.not_lt_zero _)⟩

section Rounds

variable [Scalar.Rounds K]

open Scalar.Rounds

/-- Bounds as they are stored. -/
theorem normalize_spec (hlower : Scalar.isNaN lower = false) (hupper : Scalar.isNaN upper = false) :
    (Scalar.isNaN (normalize t lower upper).1 = false ∧ Scalar.isNaN (normalize t lower upper).2 = false) ∧
      (t.isIntegral = true →
        Scalar.Whole (normalize t lower upper).1 ∧ Scalar.Whole (normalize t lower upper).2) := by
  have hceil := defined_ceil hlower
  have hfloor := defined_floor hupper
  cases t with
  | binary =>
    refine ⟨⟨?_, ?_⟩, fun _ => ⟨(whole_ceil _).max whole_zero, (whole_floor _).min whole_one⟩⟩
    · show Scalar.isNaN (Scalar.max (Scalar.ceil lower) 0) = false
      rcases Scalar.max_cases (Scalar.ceil lower) 0 with heq | heq <;> rw [heq]
      · exact hceil
      · exact defined_zero
    · show Scalar.isNaN (Scalar.min (Scalar.floor upper) 1) = false
      rcases Scalar.min_cases (Scalar.floor upper) 1 with heq | heq <;> rw [heq]
      · exact hfloor
      · exact defined_one
  | integer => exact ⟨⟨hceil, hfloor⟩, fun _ => ⟨whole_ceil _, whole_floor _⟩⟩
  | implicit => exact ⟨⟨hceil, hfloor⟩, fun _ => ⟨whole_ceil _, whole_floor _⟩⟩
  | continuous => exact ⟨⟨hlower, hupper⟩, nofun⟩

omit [Scalar.Rounds K] in
/-- The new variable is active, and so are those that were. -/
theorem Partitioned.isActive_addVar (h : p.Partitioned) {name : String} {obj : K}
    (hadd : p.addVar name t lower upper obj = .ok (v, q)) :
    q.isActive w = true ↔ p.isActive w = true ∨ w = p.numVars := by
  obtain ⟨hq, hmem⟩ := h.addVar hadd
  refine hq.groups.isSome_position?.trans (Iff.trans ?_ (or_congr_left h.groups.isSome_position?.symm))
  refine ⟨fun ⟨u, hu⟩ => ((hmem w u).mp hu).imp (⟨u, ·⟩) And.right, fun hw => ?_⟩
  rcases hw with ⟨u, hu⟩ | rfl
  · exact ⟨u, (hmem w u).mpr (.inl hu)⟩
  · exact ⟨t, (hmem _ t).mpr (.inr ⟨rfl, rfl⟩)⟩

omit [Scalar.Rounds K] in
theorem defined_of_addVar {name : String} {obj : K} (hadd : p.addVar name t lower upper obj = .ok (v, q)) :
    Scalar.isNaN lower = false ∧ Scalar.isNaN upper = false := by
  have hbounds := (addVar_spec hadd).2.1
  unfold badBounds at hbounds
  rw [Bool.or_eq_false_iff, Bool.or_eq_false_iff, Bool.or_eq_false_iff] at hbounds
  exact hbounds.1.1

theorem sound_normalize {x : Variable K} (hlower : Scalar.isNaN x.lower = false) (hupper : Scalar.isNaN x.upper = false) :
    Variable.Sound { x with
      type := t, lower := (normalize t x.lower x.upper).1, upper := (normalize t x.lower x.upper).2 } :=
  have h := normalize_spec (t := t) hlower hupper
  ⟨h.1, h.2⟩

theorem Tidy.addVar (h : p.Tidy) {name : String} {obj : K} (hadd : p.addVar name t lower upper obj = .ok (v, q)) :
    q.Tidy := by
  obtain ⟨hlower, hupper⟩ := defined_of_addVar hadd
  have hsound := forall_addVar h.bounds hadd (sound_normalize (x := ⟨name, t, obj, lower, upper⟩) hlower hupper)
  refine ⟨(h.partitioned.addVar hadd).1, fun w hw => ?_, hsound⟩
  rw [addVar_numVars hadd, Nat.lt_succ_iff_lt_or_eq] at hw
  exact (h.partitioned.isActive_addVar hadd).mpr (hw.imp_left (h.active w))

theorem Tidy.changeType (h : p.Tidy) (hv : v < p.numVars) (hchange : p.changeType v t = .ok q) :
    q.Tidy ∧ q.numVars = p.numVars := by
  obtain ⟨hpartitioned, hsize, hactive⟩ := h.partitioned.changeType hv hchange
  have hsound := forall_changeType h.bounds hv hchange fun x hx => sound_normalize hx.defined.1 hx.defined.2
  exact ⟨⟨hpartitioned, fun w hw => (hactive w).trans (h.active w (hsize ▸ hw)), hsound⟩, hsize⟩

end Rounds

end Problem

end BranchAndCut

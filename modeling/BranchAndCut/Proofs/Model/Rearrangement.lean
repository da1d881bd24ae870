import BranchAndCut.Proofs.Model.Partitions
import BranchAndCut.Solve.Search

/-! # Groups in another order

Adding, removing and changing the type of variables moves others within their groups, so
that problems with the same variables may list them in different orders. Whatever is done
to two such problems, they differ in that only. -/

namespace BranchAndCut

deriving instance DecidableEq for Variable, Problem

namespace Problem

variable {K : Type} [Scalar K] {p q : Problem K} {v : VarId} {t : VarType} {lower upper : K} {fixed : List VarId}

/-- The problems differ at most in the order in which their groups list the active variables. -/
structure Rearranged (p q : Problem K) : Prop where
  left : p.Partitioned
  right : q.Partitioned
  same : q = { p with groups := q.groups }
  active : ∀ v, q.isActive v = p.isActive v

theorem Partitioned.nodup_branchable (h : p.Partitioned) : p.branchable.Nodup :=
  h.groups.nodup_order.sublist (List.take_sublist _ _)

theorem Partitioned.mem_order (h : p.Partitioned) : v ∈ p.order ↔ p.isActive v = true := by
  unfold order
  rw [Array.mem_toList_iff, h.groups.mem_order]
  exact h.groups.isSome_position?.symm

/-- What is active after some variables were taken out of their groups. -/
theorem Partitioned.isActive_compactAll (h : p.Partitioned) (fixed : List VarId) :
    (fixed.foldl Problem.compact p).isActive v = true ↔ p.isActive v = true ∧ v ∉ fixed := by
  obtain ⟨hall, hmem⟩ := h.compactAll fixed
  refine hall.groups.isSome_position?.trans (Iff.trans ?_ (and_congr_left' h.groups.isSome_position?.symm))
  rw [exists_congr (hmem v), exists_and_right]

/-! ## The same calls -/

/-- Adding a variable looks at nothing of the groups. -/
theorem addVar_groups (p : Problem K) (groups : Groups) (name : String) (t : VarType) (lower upper obj : K) :
    ({ p with groups } : Problem K).addVar name t lower upper obj =
      (p.addVar name t lower upper obj).map fun r => (r.1, { r.2 with groups := groups.extend.insert t r.1 }) := by
  unfold addVar findVar? numVars
  dsimp only
  by_cases hname : (p.names.lookup name).isSome = true
  · rw [if_pos hname, if_pos hname]
    rfl
  by_cases hbounds : badBounds lower upper = true
  · rw [if_neg hname, if_neg hname, if_pos hbounds, if_pos hbounds]
    rfl
  by_cases hobj : (!Scalar.isFinite obj) = true
  · rw [if_neg hname, if_neg hname, if_neg hbounds, if_neg hbounds, if_pos hobj, if_pos hobj]
    rfl
  rw [if_neg hname, if_neg hname, if_neg hbounds, if_neg hbounds, if_neg hobj, if_neg hobj]
  rfl

/-- Nor does changing a type, but for where the variable is now. -/
theorem changeType_groups (p : Problem K) (groups : Groups) (v : VarId) (t : VarType) :
    ∃ regroup : Problem K → Groups, ({ p with groups } : Problem K).changeType v t =
      (p.changeType v t).map fun p' => { p' with groups := regroup p' } := by
  have hvar : ({ p with groups } : Problem K).var v = p.var v := rfl
  unfold changeType
  rw [hvar]
  dsimp only
  by_cases hsame : (p.var v).type = t
  · rw [if_pos hsame, if_pos hsame]
    exact ⟨fun _ => groups, rfl⟩
  by_cases hrefused : (t = .binary && (decide ((p.var v).lower < -0.5) || decide (1.5 < (p.var v).upper))) = true
  · rw [if_neg hsame, if_neg hsame, if_pos hrefused, if_pos hrefused]
    exact ⟨fun _ => groups, rfl⟩
  rw [if_neg hsame, if_neg hsame, if_neg hrefused, if_neg hrefused]
  exact ⟨fun _ => _, rfl⟩

theorem compactAll_groups (p : Problem K) (fixed : List VarId) :
    fixed.foldl compact p = { p with groups := (fixed.foldl compact p).groups } := by
  induction fixed generalizing p with
  | nil => rfl
  | cons v fixed ih =>
    have hfirst : p.compact v = { p with groups := (p.compact v).groups } := by
      unfold compact
      split <;> rfl
    rw [List.foldl_cons, ih, hfirst]

/-! ## Rearranged problems stay rearranged -/

namespace Rearranged

theorem groups (h : p.Rearranged q) : ∃ groups, q = { p with groups } := ⟨_, h.same⟩

theorem vars (h : p.Rearranged q) : q.vars = p.vars := (congrArg Problem.vars h.same :)

theorem var (h : p.Rearranged q) (v : VarId) : q.var v = p.var v := by
  unfold Problem.var
  rw [h.vars]

theorem numVars (h : p.Rearranged q) : q.numVars = p.numVars := congrArg Array.size h.vars

/-- **The variables to branch on** are the same ones. -/
theorem branchable_perm (h : p.Rearranged q) : q.branchable.Perm p.branchable := by
  refine (List.perm_ext_iff_of_nodup h.right.nodup_branchable h.left.nodup_branchable).mpr fun v => ?_
  rw [h.right.mem_branchable, h.left.mem_branchable, h.active, h.var]

theorem of_isActive (hp : p.Partitioned) (hq : q.Partitioned) (hsame : ∃ groups, q = { p with groups })
    (hactive : ∀ v, q.isActive v = true ↔ p.isActive v = true) : p.Rearranged q := by
  obtain ⟨groups, rfl⟩ := hsame
  exact ⟨hp, hq, rfl, fun v => Bool.eq_iff_iff.mpr (hactive v)⟩

/-- **A new variable** is refused by both for the same reason, or gets the same number. -/
theorem addVar (h : p.Rearranged q) (name : String) (t : VarType) (lower upper obj : K) :
    (∃ flaw, p.addVar name t lower upper obj = .error flaw ∧ q.addVar name t lower upper obj = .error flaw) ∨
    ∃ v p' q', p.addVar name t lower upper obj = .ok (v, p') ∧ q.addVar name t lower upper obj = .ok (v, q') ∧
      p'.Rearranged q' := by
  have hq : q.addVar name t lower upper obj =
      (p.addVar name t lower upper obj).map fun r => (r.1, { r.2 with groups := q.groups.extend.insert t r.1 }) := by
    conv_lhs => rw [h.same]
    exact p.addVar_groups ..
  cases hadd : p.addVar name t lower upper obj with
  | error flaw =>
    rw [hadd] at hq
    exact .inl ⟨flaw, rfl, hq⟩
  | ok r =>
    rw [hadd] at hq
    refine .inr ⟨_, _, _, rfl, hq, of_isActive (h.left.addVar hadd).1 (h.right.addVar hq).1 ⟨_, rfl⟩ fun v => ?_⟩
    rw [h.right.isActive_addVar hq, h.left.isActive_addVar hadd, h.active, h.numVars]

/-- **A change of type** is refused by both for the same reason, or made in both. -/
theorem changeType (h : p.Rearranged q) (hv : v < p.numVars) (t : VarType) :
    (∃ flaw, p.changeType v t = .error flaw ∧ q.changeType v t = .error flaw) ∨
    ∃ p' q', p.changeType v t = .ok p' ∧ q.changeType v t = .ok q' ∧ p'.Rearranged q' ∧ p'.numVars = p.numVars := by
  obtain ⟨regroup, hq⟩ := p.changeType_groups q.groups v t
  rw [← h.same] at hq
  cases hchange : p.changeType v t with
  | error flaw =>
    rw [hchange] at hq
    exact .inl ⟨flaw, rfl, hq⟩
  | ok p' =>
    rw [hchange] at hq
    obtain ⟨hp', hsize, hactive⟩ := h.left.changeType hv hchange
    obtain ⟨hq', -, hactive'⟩ := h.right.changeType (h.numVars ▸ hv) hq
    refine .inr ⟨_, _, rfl, hq, of_isActive hp' hq' ⟨_, rfl⟩ fun v => ?_, hsize⟩
    rw [hactive, hactive', h.active]

/-- **Variables that are fixed** leave both. -/
theorem compactAll (h : p.Rearranged q) (fixed fixed' : List VarId) (hfixed : ∀ v, v ∈ fixed' ↔ v ∈ fixed) :
    (fixed.foldl compact p).Rearranged (fixed'.foldl compact q) := by
  refine of_isActive (h.left.compactAll fixed).1 (h.right.compactAll fixed').1 ?_ fun v => ?_
  · rw [p.compactAll_groups, q.compactAll_groups, h.same]
    exact ⟨_, rfl⟩
  · rw [h.right.isActive_compactAll, h.left.isActive_compactAll, h.active, hfixed]

/-- Integer variables within [0, 1] are taken for binary ones in both. -/
theorem asBinary (h : p.Rearranged q) (hv : v < p.numVars) :
    (Search.asBinary p v).Rearranged (Search.asBinary q v) ∧ (Search.asBinary p v).numVars = p.numVars := by
  unfold Search.asBinary
  rw [h.var]
  dsimp only
  split
  · obtain ⟨flaw, hp, hq⟩ | ⟨p', q', hp, hq, h'⟩ := h.changeType hv .binary <;> rw [hp, hq]
    · exact ⟨h, rfl⟩
    · exact h'
  · exact ⟨h, rfl⟩

theorem asBinaryAll (h : p.Rearranged q) (vs : List VarId) (hvs : ∀ v ∈ vs, v < p.numVars) :
    (vs.foldl Search.asBinary p).Rearranged (vs.foldl Search.asBinary q) := by
  induction vs generalizing p q with
  | nil => exact h
  | cons v vs ih =>
    obtain ⟨hfirst, hsize⟩ := h.asBinary (hvs v List.mem_cons_self)
    exact ih hfirst fun w hw => hsize ▸ hvs w (List.mem_cons_of_mem _ hw)

/-- Problems that calls have made, if the same variables have been taken out. -/
theorem of_called {fixed' : List VarId} (hp : Called p fixed) (hq : Called q fixed')
    (hsame : ∃ groups, q = { p with groups }) (hfixed : ∀ v, v ∈ fixed' ↔ v ∈ fixed) : p.Rearranged q := by
  obtain ⟨hp, -⟩ := hp.listed
  obtain ⟨hq, -⟩ := hq.listed
  refine of_isActive hp.partitioned hq.partitioned hsame fun v => ?_
  obtain ⟨groups, rfl⟩ := hsame
  rw [hq.active, hp.active, hfixed]
  rfl

end Rearranged

end Problem

end BranchAndCut

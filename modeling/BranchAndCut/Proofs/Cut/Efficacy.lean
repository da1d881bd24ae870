import BranchAndCut.Constraint.Linear
import BranchAndCut.Proofs.Order

/-! # Violated rows, and the most effective ones

A constraint is checked up to a tolerance that grows with its side, its row is offered if it
is violated by more than the tolerance itself, and cuts are taken by violation over norm,
the greatest first. Over exact numbers the three agree on what is violated at all. -/

namespace BranchAndCut

variable {F : Type} [Field F] [LinearOrder F] [IsStrictOrderedRing F] [FloorRing F] [Rooted F]
  {row : Row (Exact F)} {x : Array (Exact F)}

/-- The slack at a side is no less than the tolerance. -/
theorem LinearFamily.le_sideTol {tol : Exact F} (side : Exact F) (htol : 0 < tol) :
    tol ≤ sideTol tol side := by
  unfold sideTol
  have hmax : (1 : Exact F) ≤ Scalar.max (Scalar.abs side) 1 := by
    rw [Exact.one_def]
    exact Exact.le_max_right' (Exact.fin_ne_nan _)
  generalize Scalar.max (Scalar.abs side) 1 = scale at hmax
  rw [Exact.zero_def] at htol
  rw [Exact.one_def] at hmax
  cases tol with
  | nan => exact htol.elim
  | negInf => exact htol.elim
  | posInf =>
    cases scale with
    | nan => exact hmax.elim
    | negInf => exact hmax.elim
    | posInf => trivial
    | fin c =>
      have hc : 0 < c := lt_of_lt_of_le one_pos hmax
      have hmul : (Exact.posInf : Exact F) * Exact.fin c = .posInf := if_pos hc
      rw [hmul]
      trivial
  | fin t =>
    cases scale with
    | nan => exact hmax.elim
    | negInf => exact hmax.elim
    | posInf =>
      rw [Exact.fin_mul_posInf htol]
      trivial
    | fin c => exact le_mul_of_one_le_right (le_of_lt htol) hmax

/-- Missing a side by more than a slack, which is no less than the tolerance. -/
theorem Exact.lt_sub_of_add_lt' {t a b s : Exact F} (ht : 0 < t) (hts : t ≤ s) (h : a + s < b) : t < b - a := by
  rw [Exact.zero_def] at ht
  cases s <;> cases t <;> cases a <;> cases b <;>
    first | exact h.elim | exact hts.elim | exact ht.elim | trivial | skip
  rw [Exact.fin_add, Exact.fin_lt] at h
  rw [Exact.fin_sub, Exact.fin_lt]
  rw [Exact.fin_le] at hts
  linarith

theorem Exact.lt_sub_of_lt_sub' {t a b s : Exact F} (ht : 0 < t) (hts : t ≤ s) (h : b < a - s) : t < a - b := by
  rw [Exact.zero_def] at ht
  cases s <;> cases t <;> cases a <;> cases b <;>
    first | exact h.elim | exact hts.elim | exact ht.elim | trivial | skip
  rw [Exact.fin_sub, Exact.fin_lt] at h
  rw [Exact.fin_sub, Exact.fin_lt]
  rw [Exact.fin_le] at hts
  linarith

/-- A row that fails its check is violated by more than the tolerance. -/
theorem LinearFamily.lt_violation {tol : Exact F} (htol : 0 < tol) (h : violates row x tol = true) :
    tol < row.violation x := by
  unfold violates at h
  unfold Row.violation
  dsimp only at h ⊢
  have hinner : tol < Scalar.max (row.lhs - row.activity x) (row.activity x - row.rhs) := by
    rw [Bool.or_eq_true, decide_eq_true_iff, decide_eq_true_iff] at h
    rcases h with h | h
    · have hsub := Exact.lt_sub_of_add_lt' htol (le_sideTol row.rhs htol) h
      exact Exact.lt_of_lt_of_le' hsub (Exact.le_max_right' (Exact.ne_nan_of_lt hsub).2)
    · have hsub := Exact.lt_sub_of_lt_sub' htol (le_sideTol row.lhs htol) h
      exact Exact.lt_of_lt_of_le' hsub (Exact.le_max_of_le (Exact.le_refl' (Exact.ne_nan_of_lt hsub).2))
  exact Exact.lt_of_lt_of_le' hinner (Exact.le_max_of_le (Exact.le_refl' (Exact.ne_nan_of_lt hinner).2))

/-- Only a violated row is effective. -/
theorem Row.violation_pos (h : 0 < row.efficacy x) : 0 < row.violation x := by
  unfold efficacy at h
  dsimp only at h
  split at h
  · rw [Exact.zero_def] at h
    exact (lt_irrefl _ h).elim
  · next hnorm =>
    rw [Exact.zero_def] at h ⊢
    cases hn : row.norm with
    | nan =>
      rw [hn] at h
      cases hv : row.violation x <;> rw [hv] at h <;> exact h.elim
    | negInf =>
      rw [hn] at hnorm
      exact absurd trivial hnorm
    | posInf =>
      rw [hn] at h
      cases hv : row.violation x <;> rw [hv] at h <;> first | exact h.elim | exact (lt_irrefl _ h).elim
    | fin n =>
      rw [hn] at h hnorm
      have hpos : 0 < n := by
        refine lt_of_lt_of_le ?_ (not_lt.mp hnorm)
        norm_num
      cases hv : row.violation x with
      | nan =>
        rw [hv] at h
        exact h.elim
      | negInf =>
        rw [hv] at h
        change Exact.lt _ (if n < 0 then _ else _) at h
        rw [if_neg (not_lt.mpr hpos.le)] at h
        exact h.elim
      | posInf => trivial
      | fin v =>
        rw [hv, Exact.fin_div hpos.ne', Exact.fin_lt] at h
        exact (div_pos_iff_of_pos_right hpos).mp h
/-- The row of a lazy constraint that fails its check is offered. -/
theorem LinearFamily.mem_separate {f : LinearFamily (Exact F)} {conss : List Nat} {p : Fractional (Exact F)} {c : Nat}
    {cons : LinearConstraint (Exact F)} (htol : 0 < p.feasTol) (hcons : f.conss[c]? = some cons)
    (hlazy : cons.isLazy = true) (hcheck : c ∈ f.check conss p.x p.feasTol) :
    { name := cons.name, row := cons.row, isLocal := false, source := "linear" } ∈ f.separate conss p := by
  obtain ⟨hc, hfails⟩ := List.mem_filter.mp hcheck
  rw [hcons] at hfails
  obtain ⟨hlive, hviolates⟩ := Bool.and_eq_true_iff.mp hfails
  refine List.mem_filterMap.mpr ⟨c, hc, ?_⟩
  rw [hcons, Option.bind_some, hlazy, hlive, decide_eq_true (lt_violation htol hviolates)]
  rfl

/-! ## The most effective -/

/-- Of the greatest elements some first ones are no less than a given one, and are as many
as were asked for unless it is among them. -/
theorem exists_first_mergeSort {α : Type} {ge : α → α → Bool} (htrans : ∀ a b c, ge a b → ge b c → ge a c)
    (htotal : ∀ a b, ge a b || ge b a) {l : List α} {e : α} (he : e ∈ l) (n : Nat) :
    ∃ first rest, (l.mergeSort ge).take n = first ++ rest ∧ first.Subperm l ∧ (∀ b ∈ first, ge b e = true) ∧
      (e ∈ first ∨ first.length = n) := by
  have hperm := List.mergeSort_perm l ge
  have hsorted := List.pairwise_mergeSort htrans htotal l
  have hself : ge e e = true := by simpa using htotal e e
  have hmem : e ∈ l.mergeSort ge := List.mem_mergeSort.mpr he
  generalize l.mergeSort ge = sorted at hperm hsorted hmem
  have hfirst : ∀ first rest, sorted.take n = first ++ rest → first.Subperm l := fun first rest heq =>
    (((List.sublist_append_left first rest).trans (heq ▸ List.take_sublist n sorted)).subperm).trans hperm.subperm
  rw [← List.take_append_drop n sorted] at hsorted hmem
  obtain ⟨htaken, -, hbefore⟩ := List.pairwise_append.mp hsorted
  rcases List.mem_append.mp hmem with hmem | hmem
  · obtain ⟨before, after, heq⟩ := List.append_of_mem hmem
    have heq' : sorted.take n = (before ++ [e]) ++ after := by
      rw [heq, List.append_assoc]
      rfl
    refine ⟨before ++ [e], after, heq', hfirst _ _ heq', fun b hb => ?_, .inl (by simp)⟩
    rcases List.mem_append.mp hb with hb | hb
    · rw [heq] at htaken
      exact (List.pairwise_append.mp htaken).2.2 b hb e List.mem_cons_self
    · rw [List.mem_singleton.mp hb]
      exact hself
  · have heq : sorted.take n = sorted.take n ++ [] := (List.append_nil _).symm
    refine ⟨sorted.take n, [], heq, hfirst _ _ heq, fun b hb => hbefore b hb e hmem, .inr ?_⟩
    have hlong : 0 < (sorted.drop n).length := List.length_pos_of_mem hmem
    rw [List.length_drop] at hlong
    rw [List.length_take]
    omega

omit [IsStrictOrderedRing F] in
/-- The order in which cuts are selected. -/
theorem noLess_trans {α : Type} (a b c : Exact F × α) :
    (Scalar.totalOrder a.1 b.1 != .lt) = true → (Scalar.totalOrder b.1 c.1 != .lt) = true →
      (Scalar.totalOrder a.1 c.1 != .lt) = true := by
  simp only [bne_iff_ne, ← Ordering.isGE_iff_ne_lt]
  exact Std.TransCmp.isGE_trans

omit [IsStrictOrderedRing F] in
theorem noLess_total {α : Type} (a b : Exact F × α) :
    ((Scalar.totalOrder a.1 b.1 != .lt) || (Scalar.totalOrder b.1 a.1 != .lt)) = true := by
  rw [Bool.or_eq_true, bne_iff_ne, bne_iff_ne]
  by_contra hboth
  rw [not_or, not_not, not_not] at hboth
  rw [Std.OrientedCmp.gt_of_lt hboth.1] at hboth
  exact nomatch hboth.2

end BranchAndCut

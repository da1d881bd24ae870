import BranchAndCut.Proofs.Linear.Matrix
import BranchAndCut.Proofs.Lp.Steps

/-! # Solving again

A solver keeps its statuses, values and tableau from one solve to the next, and a basis that
turns out singular has replaced the statuses by then. None of this is read again: the basis
from which a solve starts is installed whole, and each value is computed anew, those of the
columns at a bound from their statuses, those of the basic columns row by row. So every
solve is the one that a new solver would make. -/

namespace BranchAndCut.Lp.Simplex

variable {K : Type} [Scalar K] {s s' : Simplex K} {p : Problem K} {c : Settings K}

/-! ## Values -/

/-- The value of a basic column depends on the columns that are not basic. -/
theorem basicValue_congr {status : Array ColumnStatus} {values values' : Array K}
    (h : ∀ j, status.getD j .basic ≠ .basic → values'.getD j 0 = values.getD j 0)
    (row : Array K) : basicValue status values' row = basicValue status values row := by
  unfold basicValue
  congr 1
  funext j _ v
  dsimp only
  by_cases hst : status.getD j .basic = .basic
  · simp [hst]
  · rw [h j hst]

/-- **Computing the values does not read the old ones**, if every basic column has a row. -/
theorem recompute_with_values {t : Tableau K} (ht : s.tableau = some t)
    (hbasic : ∀ j < s.values.size, s.statusOf j = .basic → t.InBasis j) {values : Array K}
    (hsize : values.size = s.values.size) : recompute { s with values } = s.recompute := by
  let resting : Array K → Array K := fun values =>
    values.mapIdx fun j v => if s.statusOf j != .basic then s.nonbasicValue j else v
  let filled : Array K → Array K := fun values =>
    t.rows.size.fold (fun i _ values => values.setIfInBounds (t.basicColumn i)
      (basicValue s.status values (t.rows.getD i #[]))) (resting values)
  have heq : ∀ values, recompute { s with values } = { s with values := filled values } := by
    intro values
    unfold recompute
    dsimp only
    rw [ht]
    rfl
  -- after `n` rows the values agree outside the basis and in those rows
  have hfold := fold_induction₂ (n := t.rows.size) (x := resting values) (y := resting s.values)
    (f := fun i _ values => values.setIfInBounds (t.basicColumn i)
      (basicValue s.status values (t.rows.getD i #[])))
    (g := fun i _ values => values.setIfInBounds (t.basicColumn i)
      (basicValue s.status values (t.rows.getD i #[])))
    (fun n u v => u.size = s.values.size ∧ v.size = s.values.size ∧
      (∀ j, s.statusOf j ≠ .basic → u.getD j 0 = v.getD j 0) ∧
      ∀ i < n, u.getD (t.basicColumn i) 0 = v.getD (t.basicColumn i) 0) ?_ ?_
  · obtain ⟨hu, hv, hnonbasic, hrows⟩ := hfold
    have hfilled : filled values = filled s.values := by
      refine Array.ext (hu.trans hv.symm) fun j hj hj' => ?_
      have hget : (filled values).getD j 0 = (filled s.values).getD j 0 := by
        by_cases hst : s.statusOf j = .basic
        · obtain ⟨i, hi, rfl⟩ := hbasic j (hu ▸ hj) hst
          exact hrows i hi
        · exact hnonbasic j hst
      simpa [hj, hj'] using hget
    rw [heq, hfilled, ← heq]
  · refine ⟨by simp [resting, hsize], by simp [resting], fun j hst => ?_, nofun⟩
    rw [getD_mapIdx _ _ _ 0, getD_mapIdx _ _ _ 0, hsize]
    simp [hst]
  · rintro i hi u v ⟨hu, hv, hnonbasic, hrows⟩
    have hvalue : basicValue s.status u (t.rows.getD i #[]) =
        basicValue s.status v (t.rows.getD i #[]) := basicValue_congr hnonbasic _
    refine ⟨by rw [Array.size_setIfInBounds, hu], by rw [Array.size_setIfInBounds, hv],
      fun j hst => ?_, fun i' hi' => ?_⟩
    · rw [getD_setIfInBounds, getD_setIfInBounds, hu, hv, hvalue, hnonbasic j hst]
    · rw [getD_setIfInBounds, getD_setIfInBounds, hu, hv, hvalue]
      rcases Nat.lt_succ_iff_lt_or_eq.mp hi' with hlt | rfl
      · rw [hrows i' hlt]
      · split_ifs with hlast
        · rfl
        · rw [not_and, not_lt] at hlast
          rw [getD_of_size_le _ _ (hu.symm ▸ hlast rfl), getD_of_size_le _ _ (hv.symm ▸ hlast rfl)]

/-! ## Starts -/

/-- A solver with a status and a value for each column, over constraint rows that end in a
negative identity. -/
structure Shaped (s : Simplex K) : Prop where
  status : s.status.size = s.width
  values : s.values.size = s.width
  base : s.base.size = s.numRows
  slacks : Tableau.EndsInSlacks s.numCols s.base

omit [Scalar K] in
/-- States for one program differ in their statuses, values and tableau. -/
theorem Alike.eq (h : Alike s s') :
    ∃ status values tableau, s' = { s with status, values, tableau } := by
  obtain ⟨hproblem, hsettings, hcost, hlower, hupper, hbase, -, -⟩ := h
  cases s
  cases s'
  subst hproblem hsettings hcost hlower hupper hbase
  exact ⟨_, _, _, rfl⟩

theorem Shaped.of_alike (h : s.Shaped) (ha : Alike s s') : s'.Shaped := by
  obtain ⟨status, values, tableau, rfl⟩ := ha.eq
  exact ⟨ha.status.trans h.status, ha.values.trans h.values, h.base, h.slacks⟩

theorem installSlackBasis_congr (h : Alike s s') :
    ∃ values, values.size = s.installSlackBasis.values.size ∧
      s'.installSlackBasis = { s.installSlackBasis with values } := by
  obtain ⟨status, values, tableau, rfl⟩ := h.eq
  have hstatus : ∀ f : Nat → ColumnStatus,
      status.mapIdx (fun j _ => f j) = s.status.mapIdx fun j _ => f j := fun f =>
    Array.ext (by simpa using h.status) fun j _ _ => by simp
  refine ⟨values, h.values, ?_⟩
  unfold installSlackBasis
  dsimp only
  rw [hstatus]
  rfl

theorem installSlackBasis_alike (s : Simplex K) : Alike s s.installSlackBasis :=
  ⟨rfl, rfl, rfl, rfl, rfl, rfl, Array.size_mapIdx, rfl⟩

theorem nonbasicDefault_ne_basic (s : Simplex K) (j : Nat) : s.nonbasicDefault j ≠ .basic := by
  unfold nonbasicDefault
  split_ifs <;> nofun

/-- Installing a basis, usable or not, leaves a solver for the same program. -/
theorem Shaped.installBasis_alike (h : s.Shaped) (b : Basis) : Alike s (s.installBasis b).1 := by
  rw [installBasis_eq]
  split_ifs with hshape
  · exact .refl s
  simp only [not_or, not_not] at hshape
  have hsize : (s.installed b).size = s.status.size := by
    rw [installed_size, h.status]
    unfold Basis.all
    rw [List.length_append, hshape.1, hshape.2.1]
    rfl
  split
  · exact ⟨rfl, rfl, rfl, rfl, rfl, rfl, hsize, rfl⟩
  · exact ⟨rfl, rfl, rfl, rfl, rfl, rfl, hsize, rfl⟩

theorem Shaped.start_alike (h : s.Shaped) (warmStart : Option Basis) :
    Alike s (s.start warmStart).1 := by
  have hslack : ∀ s : Simplex K, Alike s s.installSlackBasis.recompute := fun s =>
    (installSlackBasis_alike s).trans (recompute_alike _)
  unfold start
  cases warmStart with
  | none => exact hslack s
  | some b =>
    have hinstall := h.installBasis_alike b
    dsimp only
    split
    · exact hinstall.trans (recompute_alike _)
    · exact hinstall.trans (hslack _)

section Starting

variable [Scalar.Ordered K] (h : s.Shaped)

include h

/-- A start from a given basis that can be used; whether it can does not depend on the
state either. -/
theorem Shaped.warmStart (ha : Alike s s') (b : Basis) :
    (s'.installBasis b).2 = (s.installBasis b).2 ∧
      ((s.installBasis b).2 = true →
        (s'.installBasis b).1.recompute = (s.installBasis b).1.recompute) := by
  obtain ⟨status, values, tableau, rfl⟩ := ha.eq
  -- the shape asked of the basis and what is installed of it depend on the program alone
  have hcols : numCols { s with status, values, tableau } = s.numCols := rfl
  have hrows : numRows { s with status, values, tableau } = s.numRows := rfl
  have hinstalled : installed { s with status, values, tableau } b = s.installed b := rfl
  have hfactored : factored? { s with status, values, tableau } b = s.factored? b := rfl
  rw [installBasis_eq, installBasis_eq, hcols, hrows, hinstalled, hfactored]
  split_ifs with hshape
  · exact ⟨rfl, nofun⟩
  cases hfactor : s.factored? b with
  | none => exact ⟨rfl, nofun⟩
  | some t =>
    refine ⟨rfl, fun _ => ?_⟩
    refine recompute_with_values (s := { s with status := s.installed b, tableau := some t }) rfl
      (fun j hj hst => (Tableau.factor?_inBasis hfactor j).mpr ?_) ha.values
    exact List.mem_filter.mpr ⟨List.mem_range.mpr (h.values ▸ hj), beq_iff_eq.mpr hst⟩

variable [Scalar.UnitPivot K]

/-- The slack basis has a tableau in which each slack is basic. -/
theorem Shaped.slackTableau : ∃ t, s.installSlackBasis.tableau = some t ∧
    ∀ j < s.values.size, s.installSlackBasis.statusOf j = .basic → t.InBasis j := by
  have hslacks := h.slacks.factor?_isSome
  rw [h.base] at hslacks
  obtain ⟨t, ht⟩ := Option.isSome_iff_exists.mp hslacks
  refine ⟨t, ht, fun j hj hst => (Tableau.factor?_inBasis ht j).mpr ?_⟩
  rw [h.values] at hj
  unfold installSlackBasis statusOf at hst
  dsimp only at hst
  rw [getD_mapIdx _ _ _ .basic, if_pos (h.status.symm ▸ hj)] at hst
  have hge : ¬ j < s.numCols := by
    intro hlt
    rw [if_pos hlt] at hst
    exact nonbasicDefault_ne_basic s j hst
  have hwidth : j < s.numCols + s.numRows := hj
  exact List.mem_map.mpr ⟨j - s.numCols, List.mem_range.mpr (by omega), by omega⟩

/-- A start from the slack basis. -/
theorem Shaped.slackStart (ha : Alike s s') :
    s'.installSlackBasis.recompute = s.installSlackBasis.recompute := by
  obtain ⟨t, ht, hbasic⟩ := h.slackTableau
  obtain ⟨values, hsize, heq⟩ := installSlackBasis_congr ha
  rw [heq]
  exact recompute_with_values ht hbasic hsize

/-- **The state from which a solve starts does not depend on the state before it.** -/
theorem Shaped.start_congr (ha : Alike s s') (warmStart : Option Basis) :
    s'.start warmStart = s.start warmStart := by
  unfold start
  cases warmStart with
  | none => exact congrArg (·, false) (h.slackStart ha)
  | some b =>
    obtain ⟨hflag, hwarm⟩ := h.warmStart ha b
    dsimp only
    rw [hflag]
    split
    · next hused => rw [hwarm hused]
    · rw [h.slackStart (ha.trans ((h.of_alike ha).installBasis_alike b)),
        h.slackStart (h.installBasis_alike b)]

/-- A basis that cannot be used is as good as none. -/
theorem Shaped.start_of_rejected {warmStart : Option Basis}
    (hrejected : (s.start warmStart).2 = false) : s.start warmStart = s.start none := by
  cases warmStart with
  | none => rfl
  | some b =>
    unfold start at hrejected ⊢
    dsimp only at hrejected ⊢
    split at hrejected
    · cases hrejected
    · next hunused =>
      rw [if_neg hunused, if_neg Bool.false_ne_true, h.slackStart (h.installBasis_alike b)]

end Starting

/-! ## Solves -/

theorem solve_warmStarted (s : Simplex K) (warmStart : Option Basis) :
    (s.solve warmStart).1.effort.warmStarted = (s.start warmStart).2 := by
  rw [solve_eq]
  exact (iterate_moves _ _ _).2

theorem Shaped.solve_alike (h : s.Shaped) (warmStart : Option Basis) :
    Alike s (s.solve warmStart).2 := by
  rw [solve_eq]
  exact (h.start_alike warmStart).trans (alike_of_moves (iterate_moves _ _ _).1)

/-- A solver stays one for its program, however often it has solved. -/
theorem Shaped.solves_alike (h : s.Shaped) (earlier : List (Option Basis)) :
    Alike s (earlier.foldl (fun s basis => (s.solve basis).2) s) := by
  induction earlier generalizing s with
  | nil => exact .refl s
  | cons basis earlier ih =>
    have ha := h.solve_alike basis
    exact ha.trans (ih (h.of_alike ha))

theorem shape_of_validate (h : p.validate = .ok ()) :
    p.a.numRows = p.numRows ∧ p.a.numCols = p.numCols := by
  by_contra hshape
  rw [not_and_or] at hshape
  unfold Problem.validate at h
  simp only [bind, Except.bind, throw, throwThe, MonadExceptOf.throw, if_pos hshape] at h
  cases h

theorem new_shaped (hwf : p.a.WellFormed) (hnew : Simplex.new p c = .ok s) : s.Shaped := by
  have hvalidate := validate_of_new hnew
  obtain ⟨hrows, hcols⟩ := shape_of_validate hvalidate
  obtain ⟨base, hbase, hsize, hslacks⟩ := hwf.constraintRows?_slacks
  rw [new_eq hvalidate, hbase] at hnew
  obtain rfl := Except.ok.inj hnew
  rw [hrows] at hsize
  rw [hcols] at hslacks
  exact ⟨Array.size_replicate, Array.size_replicate, hsize, hslacks⟩

/-- **A solve does not depend on the solves before it**, and one whose basis is rejected is
one from no basis: its solution and the state it leaves are those of a new solver. -/
theorem solve_forgets [Scalar.Ordered K] [Scalar.UnitPivot K] (hwf : p.a.WellFormed)
    (hnew : Simplex.new p c = .ok s) (earlier : List (Option Basis)) (warmStart : Option Basis) :
    let used := earlier.foldl (fun s basis => (s.solve basis).2) s
    used.solve warmStart = s.solve warmStart ∧
      ((used.solve warmStart).1.effort.warmStarted = false →
        used.solve warmStart = s.solve none) := by
  have h := new_shaped hwf hnew
  intro used
  have hsame : used.solve warmStart = s.solve warmStart := by
    rw [solve_eq, solve_eq, h.start_congr (h.solves_alike earlier) warmStart]
  refine ⟨hsame, fun hcold => ?_⟩
  rw [hsame, solve_warmStarted] at hcold
  rw [hsame, solve_eq, solve_eq, h.start_of_rejected hcold]

/-- A column without entries cannot be basic: the basis is refused after its statuses have
been installed, on a solver that has solved before. -/
theorem solve_forgets_singular :
    let p : Problem Float :=
      { cost := #[-1, -1]
        a := ⟨1, 2, .byColumn, #[[], [(0, 2)]]⟩
        rowLower := #[Scalar.negInf], rowUpper := #[4]
        colLower := #[0, 0], colUpper := #[3, Scalar.inf] }
    let singular : Basis := { cols := [.basic, .atLower], rows := [.atUpper] }
    ∃ s : Simplex Float, Simplex.new p .default = .ok s ∧
      ((s.solve none).2.solve (some singular)).1.effort.warmStarted = false ∧
      (s.solve none).2.solve (some singular) = s.solve none := by
  intro p singular
  have hwf : p.a.WellFormed := ⟨rfl, by decide⟩
  have hvalidate : p.validate = .ok () := by decide +kernel
  obtain ⟨s, hnew⟩ : ∃ s, Simplex.new p .default = .ok s := ⟨_, new_eq hvalidate⟩
  have hcold : ((s.solve none).2.solve (some singular)).1.effort.warmStarted = false := by
    obtain rfl := Except.ok.inj ((new_eq hvalidate).symm.trans hnew)
    decide +kernel
  obtain ⟨-, hnone⟩ := solve_forgets hwf hnew [none] (some singular)
  rw [List.foldl_cons, List.foldl_nil] at hnone
  exact ⟨s, hnew, hcold, hnone hcold⟩

end BranchAndCut.Lp.Simplex

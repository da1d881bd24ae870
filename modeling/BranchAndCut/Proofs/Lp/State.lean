import BranchAndCut.Proofs.Lp.Problem
import BranchAndCut.Proofs.Lp.Restart

/-! # The state of the simplex method

A solver with a tableau keeps a basis of its constraint rows, every other column
at the bound that its status names, and finite values. The values solve the
constraint rows after they have been computed from the columns that are not
basic, and as long as only exact moves follow. -/

namespace BranchAndCut.Lp.Simplex

variable [Rooted ℚ] {p : Problem (Exact ℚ)} {s : Simplex (Exact ℚ)} {t : Tableau (Exact ℚ)}
  {j r : Nat}

/-- The solver was made for a problem. -/
structure Of (p : Problem (Exact ℚ)) (s : Simplex (Exact ℚ)) : Prop where
  problem : s.problem = p
  cost : s.cost = p.cost ++ Array.replicate p.numRows 0
  lower : s.lower = p.colLower ++ p.rowLower
  upper : s.upper = p.colUpper ++ p.rowUpper
  base : Tableau.constraintRows? p.a = some s.base
  status : s.status.size = p.width
  values : s.values.size = p.width

theorem Of.lowerOf (h : s.Of p) (j : Nat) : s.lowerOf j = p.lowerOf j := by
  unfold Simplex.lowerOf Problem.lowerOf
  rw [h.lower]

theorem Of.upperOf (h : s.Of p) (j : Nat) : s.upperOf j = p.upperOf j := by
  unfold Simplex.upperOf Problem.upperOf
  rw [h.upper]

theorem Of.numCols (h : s.Of p) : s.numCols = p.numCols := by
  unfold Simplex.numCols
  rw [h.problem]

theorem Of.numRows (h : s.Of p) : s.numRows = p.numRows := by
  unfold Simplex.numRows
  rw [h.problem]

theorem Of.width (h : s.Of p) : s.width = p.width := by
  unfold Simplex.width
  rw [h.numCols, h.numRows]
  rfl

theorem Of.alike {s' : Simplex (Exact ℚ)} (hs : s.Of p) (ha : Alike s s') : s'.Of p where
  problem := ha.problem.trans hs.problem
  cost := ha.cost.trans hs.cost
  lower := ha.lower.trans hs.lower
  upper := ha.upper.trans hs.upper
  base := by rw [ha.base, hs.base]
  status := ha.status.trans hs.status
  values := ha.values.trans hs.values

theorem Of.shaped (hs : s.Of p) (hv : p.Valid) (hwf : p.a.WellFormed) : s.Shaped := by
  obtain ⟨base, hbase, hsize, hslacks⟩ := hwf.constraintRows?_slacks
  obtain rfl := Option.some.inj (hbase.symm.trans hs.base)
  refine ⟨hs.status.trans hs.width.symm, hs.values.trans hs.width.symm, ?_, ?_⟩
  · rw [hsize, hs.numRows, hv.rows]
  · rw [hs.numCols, ← hv.cols]
    exact hslacks

/-- The value of a column as a number. -/
def val (s : Simplex (Exact ℚ)) (j : Nat) : ℚ := (s.valueOf j).toField

/-- The status of a column that is not basic names a bound that there is. -/
def Rests (p : Problem (Exact ℚ)) (st : ColumnStatus) (j : Nat) : Prop :=
  match st with
  | .basic => False
  | .atLower => Scalar.isFinite (p.lowerOf j) = true
  | .atUpper => Scalar.isFinite (p.upperOf j) = true
  | .atZero => p.lowerOf j = .negInf ∧ p.upperOf j = .posInf

/-- The tableau of a solver is one of its constraint rows, and the statuses are
those of its basis. -/
structure Based (p : Problem (Exact ℚ)) (s : Simplex (Exact ℚ)) (t : Tableau (Exact ℚ)) : Prop where
  tableau : s.tableau = some t
  derived : Tableau.Derived p.width (.start s.base) t
  complete : t.Complete
  basic : ∀ j < p.width, t.InBasis j → s.statusOf j = .basic
  rests : ∀ j < p.width, ¬ t.InBasis j → Rests p (s.statusOf j) j

/-- All values are finite, and a column that is not basic is where its status says. -/
structure Placed (p : Problem (Exact ℚ)) (s : Simplex (Exact ℚ)) (t : Tableau (Exact ℚ)) : Prop where
  nonbasic : ∀ j < p.width, ¬ t.InBasis j → s.valueOf j = s.nonbasicValue j
  finite : ∀ j < p.width, s.valueOf j = .fin (s.val j)

theorem val_of_valueOf {q : ℚ} (h : s.valueOf j = .fin q) : s.val j = q := by
  unfold val
  rw [h, Exact.toField_fin]

theorem statusOf_ne_basic (hb : s.Based p t) (hlt : j < p.width) (hj : ¬ t.InBasis j) :
    s.statusOf j ≠ .basic := by
  intro heq
  have hrests := hb.rests j hlt hj
  rw [heq] at hrests
  exact hrests

theorem Based.inBasis_iff (hb : s.Based p t) (hlt : j < p.width) :
    t.InBasis j ↔ s.statusOf j = .basic :=
  ⟨hb.basic j hlt, fun heq => by_contra fun hj => statusOf_ne_basic hb hlt hj heq⟩

theorem nonbasicValue_finite (hs : s.Of p) (hj : Rests p (s.statusOf j) j) :
    ∃ q, s.nonbasicValue j = .fin q := by
  unfold nonbasicValue
  rw [hs.lowerOf, hs.upperOf]
  cases hst : s.statusOf j with
  | basic =>
    rw [hst] at hj
    exact hj.elim
  | atLower =>
    rw [hst] at hj
    exact Exact.isFinite_iff.mp hj
  | atUpper =>
    rw [hst] at hj
    exact Exact.isFinite_iff.mp hj
  | atZero => exact ⟨0, Exact.zero_def⟩

/-! ## Starting bases -/

theorem installSlackBasis_of (hs : s.Of p) : s.installSlackBasis.Of p where
  problem := hs.problem
  cost := hs.cost
  lower := hs.lower
  upper := hs.upper
  base := hs.base
  status := by
    unfold installSlackBasis
    rw [Array.size_mapIdx]
    exact hs.status
  values := hs.values

variable (hv : p.Valid)

include hv

theorem rests_nonbasicDefault (hs : s.Of p) (hlt : j < p.width) :
    Rests p (s.nonbasicDefault j) j := by
  unfold nonbasicDefault
  rw [hs.lowerOf, hs.upperOf]
  split_ifs with hlower hupper
  · exact hlower
  · exact hupper
  · refine ⟨(hv.lower_cases hlt).resolve_right ?_, (hv.upper_cases hlt).resolve_right ?_⟩
    · rintro ⟨q, hq⟩
      exact hlower (by rw [hq]; rfl)
    · rintro ⟨q, hq⟩
      exact hupper (by rw [hq]; rfl)

theorem rests_sanitizeNonbasic (hs : s.Of p) (hlt : j < p.width) (st : ColumnStatus) :
    Rests p (s.sanitizeNonbasic j st) j := by
  have hdefault := rests_nonbasicDefault hv hs hlt
  unfold sanitizeNonbasic
  rw [hs.lowerOf, hs.upperOf]
  cases st with
  | atLower =>
    dsimp only
    split_ifs with hfinite
    · exact hfinite
    · exact hdefault
  | atUpper =>
    dsimp only
    split_ifs with hfinite
    · exact hfinite
    · exact hdefault
  | basic => exact hdefault
  | atZero => exact hdefault

variable (hwf : p.a.WellFormed)

include hwf

/-- What elimination finds for the basic columns of the statuses is a basis. -/
theorem based_of_factor? (hs : s.Of p) {basic : List Nat} {tolPivot : Exact ℚ} (htol : 0 ≤ tolPivot)
    (hfactor : Tableau.factor? s.base basic tolPivot = some t) (htableau : s.tableau = some t)
    (hbasic : ∀ j < p.width, j ∈ basic → s.statusOf j = .basic)
    (hrests : ∀ j < p.width, j ∉ basic → Rests p (s.statusOf j) j) : s.Based p t := by
  obtain ⟨hnumeric, -⟩ := hv.base_solves hwf hs.base
  obtain ⟨hderived, hcomplete, hmem⟩ := Tableau.factor?_derived hnumeric htol hfactor
  exact ⟨htableau, hderived, hcomplete, fun j hlt hj => hbasic j hlt ((hmem j).mp hj),
    fun j hlt hj => hrests j hlt fun hin => hj ((hmem j).mpr hin)⟩

theorem installSlackBasis_based (hs : s.Of p) (ht : s.installSlackBasis.tableau = some t) :
    s.installSlackBasis.Based p t := by
  have hstatus : ∀ j < p.width, s.installSlackBasis.statusOf j =
      if j < p.numCols then s.nonbasicDefault j else .basic := by
    intro j hlt
    unfold installSlackBasis statusOf
    dsimp only
    rw [getD_mapIdx _ _ _ .basic, if_pos (hs.status.symm ▸ hlt), hs.numCols]
  have hmem : ∀ j < p.width, j ∈ (List.range s.numRows).map (s.numCols + ·) ↔ ¬ j < p.numCols := by
    intro j hlt
    rw [hs.numCols, hs.numRows, List.mem_map]
    constructor
    · rintro ⟨i, -, rfl⟩
      omega
    · intro hge
      refine ⟨j - p.numCols, List.mem_range.mpr ?_, by omega⟩
      have hlt' : j < p.numCols + p.numRows := hlt
      omega
  have htol : (0 : Exact ℚ) ≤ 0 := by rw [Exact.zero_def, Exact.fin_le]
  refine based_of_factor? hv hwf (installSlackBasis_of hs) htol ht ht ?_ ?_
  · intro j hlt hj
    rw [hstatus j hlt, if_neg ((hmem j hlt).mp hj)]
  · intro j hlt hj
    rw [hstatus j hlt, if_pos (not_not.mp fun hge => hj ((hmem j hlt).mpr hge))]
    exact rests_nonbasicDefault hv hs hlt

theorem installBasis_spec (hs : s.Of p) (htol : 0 ≤ s.settings.tolPivot) (b : Basis) :
    (s.installBasis b).1.Of p ∧ (s.installBasis b).1.settings = s.settings ∧
      ((s.installBasis b).2 = true → ∃ t, (s.installBasis b).1.Based p t) := by
  rw [installBasis_eq]
  split_ifs with hshape
  · exact ⟨hs, rfl, nofun⟩
  simp only [not_or, not_not] at hshape
  have hlength : b.all.length = p.width := by
    unfold Basis.all
    rw [List.length_append, hshape.1, hshape.2.1, ← hs.width]
    rfl
  have hsize : (s.installed b).size = p.width := (installed_size b).trans hlength
  split
  · next t hfactor =>
    have hof : Of p { s with status := s.installed b, tableau := some t } :=
      ⟨hs.problem, hs.cost, hs.lower, hs.upper, hs.base, hsize, hs.values⟩
    refine ⟨hof, rfl, fun _ => ⟨t, based_of_factor? hv hwf hof htol hfactor rfl ?_ ?_⟩⟩
    · intro j hlt hj
      exact beq_iff_eq.mp (List.mem_filter.mp hj).2
    · intro j hlt hj
      have hne : (s.installed b).getD j .basic ≠ .basic := by
        intro heq
        exact hj (List.mem_filter.mpr
          ⟨List.mem_range.mpr (hs.width.symm ▸ hlt), beq_iff_eq.mpr heq⟩)
      have hstatus : statusOf { s with status := s.installed b, tableau := some t } j =
          (s.installed b).getD j .basic := rfl
      rw [hstatus]
      rw [installed_getD (hlength.symm ▸ hlt)] at hne ⊢
      by_cases hbasic : b.all.getD j .basic = .basic
      · rw [if_pos hbasic] at hne
        exact (hne rfl).elim
      · rw [if_neg hbasic]
        exact rests_sanitizeNonbasic hv hs hlt _
  · exact ⟨⟨hs.problem, hs.cost, hs.lower, hs.upper, hs.base, hsize, hs.values⟩, rfl, nofun⟩

end BranchAndCut.Lp.Simplex

import BranchAndCut.Lp.Problem
import BranchAndCut.Proofs.Linear.Matrix

/-! # Linear programs and their certificates

A linear program over points with rational values, and what it means for a
solution to certify optimality, infeasibility or unboundedness up to the
tolerances. Row slacks are counted as further columns, as in the tableau. -/

namespace BranchAndCut.Lp

variable [Rooted ℚ]

namespace Problem

variable {p : Problem (Exact ℚ)} {j : Nat}

/-- The number of columns, slacks included. -/
def width (p : Problem (Exact ℚ)) : Nat := p.numCols + p.numRows

/-- The lower bounds of the columns, then of the rows. -/
def lowerOf (p : Problem (Exact ℚ)) (j : Nat) : Exact ℚ := (p.colLower ++ p.rowLower).getD j 0

def upperOf (p : Problem (Exact ℚ)) (j : Nat) : Exact ℚ := (p.colUpper ++ p.rowUpper).getD j 0

/-- The cost of a column, zero for slacks. -/
def costOf (p : Problem (Exact ℚ)) (j : Nat) : ℚ := (p.cost.getD j 0).toField

/-- The values of all columns at a point: its own and those of the rows. -/
def extend (p : Problem (Exact ℚ)) (x : Nat → ℚ) (j : Nat) : ℚ :=
  if j < p.numCols then x j else p.a.apply x (j - p.numCols)

/-- The cost of a point. -/
def objectiveAt (p : Problem (Exact ℚ)) (x : Nat → ℚ) : ℚ :=
  ∑ j ∈ Finset.range p.numCols, p.costOf j * x j

/-- A point satisfies the bounds of all columns and rows. -/
structure Feasible (p : Problem (Exact ℚ)) (x : Nat → ℚ) : Prop where
  cols : ∀ j < p.numCols, p.colLower.getD j 0 ≤ .fin (x j) ∧ .fin (x j) ≤ p.colUpper.getD j 0
  rows : ∀ i < p.numRows,
    p.rowLower.getD i 0 ≤ .fin (p.a.apply x i) ∧ .fin (p.a.apply x i) ≤ p.rowUpper.getD i 0

/-- The bounds of every column and of every row are in order. -/
structure Ordered (p : Problem (Exact ℚ)) : Prop where
  cols : ∀ j < p.numCols, p.colLower.getD j 0 ≤ p.colUpper.getD j 0
  rows : ∀ i < p.numRows, p.rowLower.getD i 0 ≤ p.rowUpper.getD i 0

/-- A direction that leaves no finite bound of a column or row behind. -/
structure Recedes (p : Problem (Exact ℚ)) (d : Nat → ℚ) : Prop where
  cols : ∀ j < p.numCols, (p.colLower.getD j 0 ≠ .negInf → 0 ≤ d j) ∧
    (p.colUpper.getD j 0 ≠ .posInf → d j ≤ 0)
  rows : ∀ i < p.numRows, (p.rowLower.getD i 0 ≠ .negInf → 0 ≤ p.a.apply d i) ∧
    (p.rowUpper.getD i 0 ≠ .posInf → p.a.apply d i ≤ 0)

/-- The value of a column is below its lower bound by more than the tolerance. -/
def Below (p : Problem (Exact ℚ)) (primal : ℚ) (j : Nat) (q : ℚ) : Prop :=
  .fin q < p.lowerOf j - .fin (primal * (1 + |q|))

def Above (p : Problem (Exact ℚ)) (primal : ℚ) (j : Nat) (q : ℚ) : Prop :=
  p.upperOf j + .fin (primal * (1 + |q|)) < .fin q

instance (p : Problem (Exact ℚ)) (primal : ℚ) (j : Nat) (q : ℚ) : Decidable (p.Below primal j q) :=
  inferInstanceAs (Decidable (_ < _))

instance (p : Problem (Exact ℚ)) (primal : ℚ) (j : Nat) (q : ℚ) : Decidable (p.Above primal j q) :=
  inferInstanceAs (Decidable (_ < _))

/-- The value of a column is within its bounds up to the tolerance. -/
def Within (p : Problem (Exact ℚ)) (primal : ℚ) (j : Nat) (q : ℚ) : Prop :=
  p.lowerOf j - .fin (primal * (1 + |q|)) ≤ .fin q ∧ .fin q ≤ p.upperOf j + .fin (primal * (1 + |q|))

/-- By how much a value misses the bounds of its column, if by more than the tolerance. -/
def violation (p : Problem (Exact ℚ)) (primal : ℚ) (j : Nat) (q : ℚ) : ℚ :=
  if p.Below primal j q then (p.lowerOf j).toField - q
  else if p.Above primal j q then q - (p.upperOf j).toField
  else 0

/-- The problems that are accepted. -/
structure Valid (p : Problem (Exact ℚ)) : Prop where
  rows : p.a.numRows = p.numRows
  cols : p.a.numCols = p.numCols
  byColumn : p.a.orientation = .byColumn
  rowUpper : p.rowUpper.size = p.numRows
  colLower : p.colLower.size = p.numCols
  colUpper : p.colUpper.size = p.numCols
  cost : ∀ v ∈ p.cost, Scalar.isFinite v = true
  stored : ∀ vec ∈ p.a.vectors, Matrix.Stored p.a.numRows vec
  bounds : ∀ b ∈ p.boundPairs, badBounds b = false

theorem valid_of_validate (hvalid : p.validate = .ok ()) (hwf : p.a.WellFormed) : p.Valid := by
  unfold validate at hvalid
  simp only [bind, Except.bind, pure, Except.pure, throw, throwThe, MonadExceptOf.throw] at hvalid
  split_ifs at hvalid with hshape horient hrow hcol hcost hentries
  simp only [not_or, not_not] at hshape horient hrow hcol
  have hbounds : p.boundPairs.find? badBounds = none := by
    cases hfind : p.boundPairs.find? badBounds with
    | none => rfl
    | some b =>
      rw [hfind] at hvalid
      cases hvalid
  refine ⟨hshape.1, hshape.2, horient, hrow, hcol.1, hcol.2, fun v hv => ?_, fun vec hvec e he => ?_,
    fun b hb => by simpa using List.find?_eq_none.mp hbounds b hb⟩
  · by_contra hinf
    exact hcost (Array.any_eq_true'.mpr ⟨v, hv, by simpa using hinf⟩)
  · refine ⟨hwf.inner vec hvec e he, (Exact.fin_toField ?_).symm⟩
    obtain ⟨x, hx, hvalue⟩ := Matrix.exists_mem_entries hvec he
    by_contra hinf
    exact hentries (List.any_eq_true.mpr ⟨x, hx, by simpa [hvalue] using hinf⟩)

namespace Valid

variable (h : p.Valid)

include h

theorem bound_pair (hj : j < p.width) : badBounds (p.lowerOf j, p.upperOf j) = false := by
  refine h.bounds _ ?_
  unfold boundPairs lowerOf upperOf
  rw [getD_append, getD_append, h.colLower, h.colUpper, List.mem_append]
  by_cases hcol : j < p.numCols
  · rw [if_pos hcol, if_pos hcol]
    right
    have hl : j < p.colLower.size := h.colLower.symm ▸ hcol
    have hu : j < p.colUpper.size := h.colUpper.symm ▸ hcol
    rw [List.mem_iff_getElem]
    exact ⟨j, by simp [hl, hu], by simp [hl, hu]⟩
  · rw [if_neg hcol, if_neg hcol]
    left
    have hl : j - p.numCols < p.rowLower.size := by
      have hlt : j < p.numCols + p.rowLower.size := hj
      omega
    have hu : j - p.numCols < p.rowUpper.size := h.rowUpper.symm ▸ hl
    rw [List.mem_iff_getElem]
    exact ⟨j - p.numCols, by simp [hl, hu], by simp [hl, hu]⟩

/-- A lower bound is a number or missing. -/
theorem lower_cases (hj : j < p.width) : p.lowerOf j = .negInf ∨ ∃ q, p.lowerOf j = .fin q := by
  have hpair := h.bound_pair hj
  unfold badBounds at hpair
  cases hl : p.lowerOf j with
  | nan => simp [hl, Scalar.isNaN] at hpair
  | negInf => exact .inl rfl
  | fin q => exact .inr ⟨q, rfl⟩
  | posInf => simp [hl, Scalar.isNaN, Scalar.inf, BEq.beq] at hpair

theorem upper_cases (hj : j < p.width) : p.upperOf j = .posInf ∨ ∃ q, p.upperOf j = .fin q := by
  have hpair := h.bound_pair hj
  unfold badBounds at hpair
  cases hu : p.upperOf j with
  | nan => simp [hu, Scalar.isNaN] at hpair
  | posInf => exact .inl rfl
  | fin q => exact .inr ⟨q, rfl⟩
  | negInf =>
    simp only [hu, Scalar.isNaN, Scalar.negInf, Scalar.inf, BEq.beq, Bool.or_eq_false_iff,
      decide_eq_false_iff_not] at hpair
    exact (hpair.2 ⟨nofun, rfl⟩).elim

/-- Checking all columns is checking the columns proper and the rows. -/
theorem forall_columns (P : Exact ℚ → Exact ℚ → ℚ → Prop) (x : Nat → ℚ) :
    (∀ j < p.width, P (p.lowerOf j) (p.upperOf j) (p.extend x j)) ↔
      (∀ j < p.numCols, P (p.colLower.getD j 0) (p.colUpper.getD j 0) (x j)) ∧
        ∀ i < p.numRows, P (p.rowLower.getD i 0) (p.rowUpper.getD i 0) (p.a.apply x i) := by
  have hcol : ∀ j < p.numCols, p.lowerOf j = p.colLower.getD j 0 ∧
      p.upperOf j = p.colUpper.getD j 0 ∧ p.extend x j = x j := by
    intro j hj
    unfold lowerOf upperOf extend
    rw [getD_append, getD_append, h.colLower, h.colUpper, if_pos hj, if_pos hj, if_pos hj]
    exact ⟨rfl, rfl, rfl⟩
  have hrow : ∀ i, p.lowerOf (p.numCols + i) = p.rowLower.getD i 0 ∧
      p.upperOf (p.numCols + i) = p.rowUpper.getD i 0 ∧
      p.extend x (p.numCols + i) = p.a.apply x i := by
    intro i
    have hge : ¬ p.numCols + i < p.numCols := by omega
    unfold lowerOf upperOf extend
    rw [getD_append, getD_append, h.colLower, h.colUpper, if_neg hge, if_neg hge, if_neg hge,
      Nat.add_sub_cancel_left]
    exact ⟨rfl, rfl, rfl⟩
  constructor
  · intro hall
    refine ⟨fun j hj => ?_, fun i hi => ?_⟩
    · have hthis := hall j (Nat.lt_add_right _ hj)
      rwa [(hcol j hj).1, (hcol j hj).2.1, (hcol j hj).2.2] at hthis
    · have hthis := hall (p.numCols + i) (Nat.add_lt_add_left hi _)
      rwa [(hrow i).1, (hrow i).2.1, (hrow i).2.2] at hthis
  · rintro ⟨hcols, hrows⟩ j hj
    by_cases hlt : j < p.numCols
    · rw [(hcol j hlt).1, (hcol j hlt).2.1, (hcol j hlt).2.2]
      exact hcols j hlt
    · obtain ⟨i, rfl⟩ : ∃ i, j = p.numCols + i := ⟨j - p.numCols, by omega⟩
      rw [(hrow i).1, (hrow i).2.1, (hrow i).2.2]
      exact hrows i (Nat.lt_of_add_lt_add_left hj)

theorem lower_le_upper (hp : p.Ordered) (hj : j < p.width) : p.lowerOf j ≤ p.upperOf j :=
  (h.forall_columns (fun l u _ => l ≤ u) 0).mpr ⟨hp.cols, hp.rows⟩ j hj

theorem within_of_feasible {x : Nat → ℚ} (hx : p.Feasible x) (hj : j < p.width) :
    p.lowerOf j ≤ .fin (p.extend x j) ∧ .fin (p.extend x j) ≤ p.upperOf j :=
  (h.forall_columns (fun l u q => l ≤ .fin q ∧ .fin q ≤ u) x).mpr ⟨hx.cols, hx.rows⟩ j hj

theorem recedes {d : Nat → ℚ} (hd : ∀ j < p.width, (p.lowerOf j ≠ .negInf → 0 ≤ p.extend d j) ∧
    (p.upperOf j ≠ .posInf → p.extend d j ≤ 0)) : p.Recedes d :=
  have hall := (h.forall_columns
    (fun l u q => (l ≠ .negInf → 0 ≤ q) ∧ (u ≠ .posInf → q ≤ 0)) d).mp hd
  ⟨hall.1, hall.2⟩

theorem within_of_not (hj : j < p.width) {primal q : ℚ} (hbelow : ¬ p.Below primal j q)
    (habove : ¬ p.Above primal j q) : p.Within primal j q := by
  have hlower : p.lowerOf j - .fin (primal * (1 + |q|)) ≠ .nan := by
    rcases h.lower_cases hj with hl | ⟨l, hl⟩ <;> rw [hl] <;> nofun
  have hupper : p.upperOf j + .fin (primal * (1 + |q|)) ≠ .nan := by
    rcases h.upper_cases hj with hu | ⟨u, hu⟩ <;> rw [hu] <;> nofun
  exact ⟨Exact.le_of_not_lt hlower (Exact.fin_ne_nan q) hbelow,
    Exact.le_of_not_lt (Exact.fin_ne_nan q) hupper habove⟩

/-- A violation is the distance to a bound that is a number. -/
theorem violation_of_below (hj : j < p.width) {primal q : ℚ} (hprimal : 0 ≤ primal)
    (hbelow : p.Below primal j q) :
    ∃ l, p.lowerOf j = .fin l ∧ p.violation primal j q = l - q ∧ 0 < l - q := by
  unfold Problem.violation
  rw [if_pos hbelow]
  unfold Problem.Below at hbelow
  rcases h.lower_cases hj with hl | ⟨l, hl⟩
  · rw [hl] at hbelow
    exact hbelow.elim
  · rw [hl, Exact.fin_sub, Exact.fin_lt] at hbelow
    have hslack : 0 ≤ primal * (1 + |q|) := by positivity
    exact ⟨l, hl, by rw [hl, Exact.toField_fin], by linarith⟩

theorem violation_of_above (hj : j < p.width) {primal q : ℚ} (hprimal : 0 ≤ primal)
    (hbelow : ¬ p.Below primal j q) (habove : p.Above primal j q) :
    ∃ u, p.upperOf j = .fin u ∧ p.violation primal j q = q - u ∧ 0 < q - u := by
  unfold Problem.violation
  rw [if_neg hbelow, if_pos habove]
  unfold Problem.Above at habove
  rcases h.upper_cases hj with hu | ⟨u, hu⟩
  · rw [hu] at habove
    exact habove.elim
  · rw [hu, Exact.fin_add, Exact.fin_lt] at habove
    have hslack : 0 ≤ primal * (1 + |q|) := by positivity
    exact ⟨u, hu, by rw [hu, Exact.toField_fin], by linarith⟩

theorem violation_nonneg (hj : j < p.width) {primal : ℚ} (hprimal : 0 ≤ primal) (q : ℚ) :
    0 ≤ p.violation primal j q := by
  by_cases hbelow : p.Below primal j q
  · obtain ⟨l, -, hviolation, hpos⟩ := h.violation_of_below hj hprimal hbelow
    rw [hviolation]
    exact hpos.le
  · by_cases habove : p.Above primal j q
    · obtain ⟨u, -, hviolation, hpos⟩ := h.violation_of_above hj hprimal hbelow habove
      rw [hviolation]
      exact hpos.le
    · unfold Problem.violation
      rw [if_neg hbelow, if_neg habove]

/-- The constraint rows say that every slack is the value of its row. -/
theorem base_solves (hwf : p.a.WellFormed) {base : Array (Array (Exact ℚ))}
    (hbase : Tableau.constraintRows? p.a = some base) :
    (Tableau.start base).Numeric p.width ∧
      ∀ z, (Tableau.start base).Solves p.width z ↔ ∀ j < p.width, z j = p.extend z j := by
  obtain ⟨rows, hrows, htab⟩ := Matrix.constraintRows?_tabulates hwf h.stored
  obtain rfl := Option.some.inj (hbase.symm.trans hrows)
  rw [h.cols, h.rows] at htab
  obtain ⟨hnumeric, hentry⟩ := htab.numeric
  refine ⟨hnumeric, fun z => ?_⟩
  have hsum : ∀ i < p.numRows, ∑ k ∈ Finset.range p.width, (Tableau.start base).entry i k * z k =
      p.a.apply z i - z (p.numCols + i) := by
    intro i hi
    have hterm : ∀ k ∈ Finset.range p.width, (Tableau.start base).entry i k * z k =
        (if k = p.numCols + i then -z k else 0) +
          if k < p.numCols then p.a.value i k * z k else 0 := by
      intro k hk
      rw [hentry i hi k (Finset.mem_range.mp hk)]
      by_cases hslack : k = p.numCols + i
      · rw [if_pos hslack, if_pos hslack, if_neg (by omega)]
        ring
      · rw [if_neg hslack, if_neg hslack, ite_mul, zero_mul, zero_add]
    have hmem : p.numCols + i ∈ Finset.range p.width :=
      Finset.mem_range.mpr (Nat.add_lt_add_left hi _)
    rw [Finset.sum_congr rfl hterm, Finset.sum_add_distrib, Finset.sum_ite_eq', if_pos hmem]
    unfold width Matrix.apply
    rw [Finset.sum_range_add, h.cols]
    have hcols : ∑ k ∈ Finset.range p.numCols,
        (if k < p.numCols then p.a.value i k * z k else 0) =
          ∑ k ∈ Finset.range p.numCols, p.a.value i k * z k :=
      Finset.sum_congr rfl fun k hk => if_pos (Finset.mem_range.mp hk)
    have hslacks : ∑ k ∈ Finset.range p.numRows, (if p.numCols + k < p.numCols then
        p.a.value i (p.numCols + k) * z (p.numCols + k) else 0) = 0 :=
      Finset.sum_eq_zero fun k _ => if_neg (by omega)
    rw [hcols, hslacks]
    ring
  unfold Tableau.Solves
  have hstart : (Tableau.start base).rows.size = p.numRows := htab.1
  rw [hstart]
  constructor
  · intro hz j hj
    unfold extend
    split_ifs with hcol
    · rfl
    · obtain ⟨i, rfl⟩ : ∃ i, j = p.numCols + i := ⟨j - p.numCols, by omega⟩
      have hi : i < p.numRows := Nat.lt_of_add_lt_add_left hj
      have hrow := hz i hi
      rw [hsum i hi] at hrow
      rw [Nat.add_sub_cancel_left]
      linarith
  · intro hz i hi
    have hrow := hz (p.numCols + i) (Nat.add_lt_add_left hi _)
    unfold extend at hrow
    rw [if_neg (by omega), Nat.add_sub_cancel_left] at hrow
    rw [hsum i hi, hrow, sub_self]

end Valid

end Problem

/-! ## Certificates -/

/-- Finite tolerances that are not negative. -/
structure Settings.Tolerances (c : Settings (Exact ℚ)) (primal dual pivot : ℚ) : Prop where
  tolPrimal : c.tolPrimal = .fin primal
  tolDual : c.tolDual = .fin dual
  tolPivot : c.tolPivot = .fin pivot
  primal_nonneg : 0 ≤ primal
  dual_nonneg : 0 ≤ dual
  pivot_nonneg : 0 ≤ pivot

namespace Solution

variable {p : Problem (Exact ℚ)}

/-- The point that a solution describes. -/
def point (sol : Solution (Exact ℚ)) (j : Nat) : ℚ := (sol.x.getD j 0).toField

def duals (sol : Solution (Exact ℚ)) (i : Nat) : ℚ := (sol.rowDuals.getD i 0).toField

def statusOf (sol : Solution (Exact ℚ)) (j : Nat) : ColumnStatus := sol.basis.all.getD j .basic

/-- The columns that the basis of a solution has at a bound. -/
def nonbasic (p : Problem (Exact ℚ)) (sol : Solution (Exact ℚ)) : Finset Nat :=
  (Finset.range p.width).filter fun j => sol.statusOf j ≠ .basic

def basic (p : Problem (Exact ℚ)) (sol : Solution (Exact ℚ)) : Finset Nat :=
  (Finset.range p.width).filter fun j => sol.statusOf j = .basic

/-- How far a point is from the solution in the columns that are not basic. -/
def distance (p : Problem (Exact ℚ)) (sol : Solution (Exact ℚ)) (y : Nat → ℚ) : ℚ :=
  ∑ j ∈ sol.nonbasic p, |p.extend y j - p.extend sol.point j|

/-- The solution holds the values of its columns and rows, all finite. -/
structure Describes (p : Problem (Exact ℚ)) (sol : Solution (Exact ℚ)) : Prop where
  x_size : sol.x.size = p.numCols
  x : ∀ j < p.numCols, sol.x.getD j 0 = .fin (sol.point j)
  rowActivity_size : sol.rowActivity.size = p.numRows
  rowActivity : ∀ i < p.numRows, sol.rowActivity.getD i 0 = .fin (p.a.apply sol.point i)

/-- The solution is optimal up to the tolerances. -/
structure Optimal (p : Problem (Exact ℚ)) (primal dual : ℚ) (sol : Solution (Exact ℚ)) : Prop
    extends sol.Describes p where
  within : ∀ j < p.width, p.Within primal j (p.extend sol.point j)
  rowDuals_size : sol.rowDuals.size = p.numRows
  rowDuals : ∀ i < p.numRows, sol.rowDuals.getD i 0 = .fin (sol.duals i)
  reducedCosts_size : sol.reducedCosts.size = p.numCols
  reducedCosts : ∀ j < p.numCols, sol.reducedCosts.getD j 0 =
    .fin (p.costOf j - p.a.applyTranspose sol.duals j)
  minimal : ∀ y, p.Feasible y →
    p.objectiveAt sol.point ≤ p.objectiveAt y + dual * sol.distance p y
  exact_minimal : dual = 0 → ∀ y, p.Feasible y → p.objectiveAt sol.point ≤ p.objectiveAt y

/-- The basis of the solution proves that nothing is feasible, up to the tolerances. -/
structure Refutes (p : Problem (Exact ℚ)) (primal dual : ℚ) (sol : Solution (Exact ℚ)) : Prop
    extends sol.Describes p where
  violated : ∃ j ∈ sol.basic p,
    p.Below primal j (p.extend sol.point j) ∨ p.Above primal j (p.extend sol.point j)
  bounded : ∀ y, p.Feasible y →
    ∑ j ∈ sol.basic p, p.violation primal j (p.extend sol.point j) ≤ dual * sol.distance p y
  exact_empty : dual = 0 → ∀ y, ¬ p.Feasible y

end Solution

end BranchAndCut.Lp

import BranchAndCut.Proofs.Linear.Heading

/-! # Elimination keeps the solutions

The rows of a tableau are homogeneous equations. A pivot on an entry that is not
zero gives equivalent equations and makes its column a unit column; the unit
columns of other rows stay. A basis is found by one such pivot for each of its
columns, so what it gives has the solutions of the constraint rows. -/

namespace BranchAndCut.Tableau

variable [Rooted ℚ] {t u : Tableau (Exact ℚ)} {width : Nat} {z : Nat → ℚ} {i j r : Nat}

/-- The number at a place of the tableau. -/
def entry (t : Tableau (Exact ℚ)) (i j : Nat) : ℚ := (t.get i j).toField

/-- Rows of one length with finite entries. -/
structure Numeric (width : Nat) (t : Tableau (Exact ℚ)) : Prop where
  width : ∀ i < t.rows.size, (t.rows.getD i #[]).size = width
  finite : ∀ i j, t.get i j = .fin (t.entry i j)

/-- The equations of the tableau hold. -/
def Solves (width : Nat) (t : Tableau (Exact ℚ)) (z : Nat → ℚ) : Prop :=
  ∀ i < t.rows.size, ∑ k ∈ Finset.range width, t.entry i k * z k = 0

theorem entry_of_get {q : ℚ} (h : t.get i j = .fin q) : t.entry i j = q := by
  unfold entry
  rw [h, Exact.toField_fin]

theorem entry_of_size_le (h : t.rows.size ≤ i) : t.entry i j = 0 := by
  have hget : t.get i j = .fin 0 := by
    unfold get
    rw [getD_of_size_le _ _ h, ← Exact.zero_def]
    rfl
  exact entry_of_get hget

theorem Numeric.row_getD (h : t.Numeric width) (i k : Nat) :
    (t.rows.getD i #[]).getD k 0 = .fin (t.entry i k) := h.finite i k

theorem Numeric.lt_of_entry (h : t.Numeric width) (hi : i < t.rows.size) (hj : t.entry i j ≠ 0) :
    j < width := by
  by_contra hge
  refine hj (entry_of_get ?_)
  unfold get
  rw [getD_of_size_le _ _ (by rw [h.width i hi]; exact not_lt.mp hge), ← Exact.zero_def]

/-! ## One pivot -/

theorem scaledRow_getD {row : Array (Exact ℚ)} {f : Nat → ℚ} (hrow : ∀ k, row.getD k 0 = .fin (f k))
    (hj : f j ≠ 0) (k : Nat) : (scaledRow row j).getD k 0 = .fin (f k / f j) := by
  have hlt : j < row.size := by
    by_contra hge
    have hzero := hrow j
    rw [getD_of_size_le _ _ (not_lt.mp hge), Exact.zero_def] at hzero
    exact hj (Exact.fin.inj hzero).symm
  unfold scaledRow
  rw [getD_setIfInBounds, Array.size_map]
  by_cases hk : k = j
  · subst hk
    rw [if_pos ⟨rfl, hlt⟩, Exact.one_def, div_self hj]
  · rw [if_neg fun h => hk h.1, getD_map _ _ _ 0, hrow, hrow, Exact.one_def, Exact.fin_div hj]
    split
    · rw [Exact.fin_mul, mul_one_div]
    · next hge =>
      have hzero := hrow k
      rw [getD_of_size_le _ _ (not_lt.mp hge), Exact.zero_def] at hzero
      rw [← Exact.fin.inj hzero, Exact.zero_def, zero_div]

theorem clearedRow_getD {row pivotRow : Array (Exact ℚ)} {f g : Nat → ℚ}
    (hrow : ∀ k, row.getD k 0 = .fin (f k)) (hpivot : ∀ k, pivotRow.getD k 0 = .fin (g k))
    (hsize : row.size = pivotRow.size) (hj : g j = 1) (k : Nat) :
    (clearedRow row pivotRow j).getD k 0 = .fin (f k - f j * g k) := by
  unfold clearedRow
  dsimp only
  rw [hrow, Exact.zero_def, Exact.fin_beq]
  by_cases hf : f j = 0
  · rw [if_pos (by simpa using hf), hf, zero_mul, sub_zero, ← Exact.zero_def, hrow]
  · rw [if_neg (by simpa using hf), getD_setIfInBounds]
    by_cases hk : k = j ∧ j < (row.zipWith (fun dst src => if src != .fin 0 then dst - .fin (f j) * src else dst) pivotRow).size
    · rw [if_pos hk, hk.1, hj, mul_one, sub_self]
    · rw [if_neg hk, ← Exact.zero_def, getD_zipWith _ _ _ _ 0 0 _ hsize, hrow, hpivot]
      split
      · rw [Exact.zero_def, Exact.fin_bne]
        by_cases hg : g k = 0
        · simp [hg]
        · simp [hg]
      · next hge =>
        have hf0 := hrow k
        have hg0 := hpivot k
        rw [getD_of_size_le _ _ (not_lt.mp hge), Exact.zero_def] at hf0
        rw [getD_of_size_le _ _ (hsize ▸ not_lt.mp hge), Exact.zero_def] at hg0
        rw [← Exact.fin.inj hf0, ← Exact.fin.inj hg0, Exact.zero_def, mul_zero, sub_zero]

theorem scaledRow_size (row : Array (Exact ℚ)) (j : Nat) : (scaledRow row j).size = row.size := by
  simp [scaledRow]

theorem clearedRow_size {row pivotRow : Array (Exact ℚ)} (hsize : row.size = pivotRow.size) :
    (clearedRow row pivotRow j).size = row.size := by
  unfold clearedRow
  by_cases hf : (row.getD j 0 == 0) = true
  · rw [if_pos hf]
  · rw [if_neg hf, Array.size_setIfInBounds, Array.size_zipWith, hsize, min_self]

theorem Numeric.pivot_get (h : t.Numeric width) (hr : r < t.rows.size) (hp : t.entry r j ≠ 0)
    (i k : Nat) : (t.pivot r j).get i k =
      .fin (if i = r then t.entry r k / t.entry r j
        else t.entry i k - t.entry i j * (t.entry r k / t.entry r j)) := by
  have hscaled := scaledRow_getD (h.row_getD r) hp
  unfold get pivot
  dsimp only
  rw [getD_mapIdx _ _ _ #[]]
  by_cases hi : i < t.rows.size
  · rw [if_pos hi]
    by_cases hir : i = r
    · rw [if_pos hir, if_pos hir, hscaled]
    · rw [if_neg hir, if_neg hir]
      refine clearedRow_getD (h.row_getD i) hscaled ?_ (div_self hp) k
      rw [h.width i hi, scaledRow_size, h.width r hr]
  · have hir : i ≠ r := fun he => hi (he ▸ hr)
    have hge := not_lt.mp hi
    rw [if_neg hi, if_neg hir, entry_of_size_le hge, entry_of_size_le hge, zero_mul, sub_zero,
      ← Exact.zero_def]
    rfl

theorem Numeric.entry_pivot (h : t.Numeric width) (hr : r < t.rows.size) (hp : t.entry r j ≠ 0)
    (i k : Nat) : (t.pivot r j).entry i k =
      if i = r then t.entry r k / t.entry r j
      else t.entry i k - t.entry i j * (t.entry r k / t.entry r j) :=
  entry_of_get (h.pivot_get hr hp i k)

theorem Numeric.pivot (h : t.Numeric width) (hr : r < t.rows.size) (hp : t.entry r j ≠ 0) :
    (t.pivot r j).Numeric width where
  width i hi := by
    rw [pivot_rows_size] at hi
    have hscaled : (scaledRow (t.rows.getD r #[]) j).size = width :=
      (scaledRow_size _ j).trans (h.width r hr)
    have hrow : (t.pivot r j).rows.getD i #[] =
        if i = r then scaledRow (t.rows.getD r #[]) j
        else clearedRow (t.rows.getD i #[]) (scaledRow (t.rows.getD r #[]) j) j :=
      (getD_mapIdx _ _ _ #[] _).trans (if_pos hi)
    rw [hrow]
    by_cases hir : i = r
    · rw [if_pos hir, hscaled]
    · rw [if_neg hir, clearedRow_size ((h.width i hi).trans hscaled.symm), h.width i hi]
  finite i k := by
    rw [h.pivot_get hr hp, h.entry_pivot hr hp]

/-- **A pivot on an entry that is not zero keeps the solutions.** -/
theorem Numeric.solves_pivot (h : t.Numeric width) (hr : r < t.rows.size)
    (hp : t.entry r j ≠ 0) (z : Nat → ℚ) : (t.pivot r j).Solves width z ↔ t.Solves width z := by
  have hpivotRow : ∑ k ∈ Finset.range width, (t.pivot r j).entry r k * z k =
      (∑ k ∈ Finset.range width, t.entry r k * z k) / t.entry r j := by
    rw [Finset.sum_div]
    refine Finset.sum_congr rfl fun k _ => ?_
    rw [h.entry_pivot hr hp, if_pos rfl]
    ring
  have hother : ∀ i ≠ r, ∑ k ∈ Finset.range width, (t.pivot r j).entry i k * z k =
      ∑ k ∈ Finset.range width, t.entry i k * z k -
        t.entry i j * ((∑ k ∈ Finset.range width, t.entry r k * z k) / t.entry r j) := by
    intro i hi
    rw [Finset.sum_div, Finset.mul_sum, ← Finset.sum_sub_distrib]
    refine Finset.sum_congr rfl fun k _ => ?_
    rw [h.entry_pivot hr hp, if_neg hi]
    ring
  constructor
  · intro hz
    have hzero : ∑ k ∈ Finset.range width, t.entry r k * z k = 0 := by
      have hrow := hz r (by rwa [pivot_rows_size])
      rw [hpivotRow, div_eq_zero_iff] at hrow
      exact hrow.resolve_right hp
    intro i hi
    by_cases hir : i = r
    · rw [hir, hzero]
    · have hrow := hz i (by rwa [pivot_rows_size])
      rwa [hother i hir, hzero, zero_div, mul_zero, sub_zero] at hrow
  · intro hz i hi
    rw [pivot_rows_size] at hi
    by_cases hir : i = r
    · rw [hir, hpivotRow, hz r hr, zero_div]
    · rw [hother i hir, hz i hi, hz r hr, zero_div, mul_zero, sub_zero]

/-! ## Bases -/

/-- A tableau with the solutions of another one, and unit columns for its basis. -/
structure Derived (width : Nat) (base t : Tableau (Exact ℚ)) : Prop where
  numeric : t.Numeric width
  rows : t.rows.size = base.rows.size
  head : t.head.size = t.rows.size
  solves : ∀ z, t.Solves width z ↔ base.Solves width z
  unit : ∀ i b, t.head.getD i none = some b →
    b < width ∧ ∀ k < t.rows.size, t.entry k b = if k = i then 1 else 0

theorem Derived.pivot {base : Tableau (Exact ℚ)} (h : Derived width base t) (hr : r < t.rows.size)
    (hp : t.entry r j ≠ 0) : Derived width base (t.pivot r j) where
  numeric := h.numeric.pivot hr hp
  rows := by rw [pivot_rows_size, h.rows]
  head := by rw [pivot_rows_size, pivot_head_size, h.head]
  solves z := (h.numeric.solves_pivot hr hp z).trans (h.solves z)
  unit i b hb := by
    rw [pivot_rows_size]
    have hhead : (t.pivot r j).head.getD i none = if i = r ∧ r < t.head.size then some j
        else t.head.getD i none := getD_setIfInBounds _ _ _ _ _
    rw [hhead, h.head] at hb
    by_cases hir : i = r
    · rw [if_pos ⟨hir, hr⟩] at hb
      obtain rfl := Option.some.inj hb
      refine ⟨h.numeric.lt_of_entry hr hp, fun k _ => ?_⟩
      rw [h.numeric.entry_pivot hr hp, hir]
      split
      · exact div_self hp
      · rw [div_self hp, mul_one, sub_self]
    · rw [if_neg fun h => hir h.1] at hb
      obtain ⟨hlt, hunit⟩ := h.unit i b hb
      refine ⟨hlt, fun k hk => ?_⟩
      have hzero : t.entry r b = 0 := by rw [hunit r hr, if_neg (Ne.symm hir)]
      rw [h.numeric.entry_pivot hr hp, hzero, zero_div, mul_zero, sub_zero, ← hunit k hk]
      split
      · next hkr => rw [hkr, hzero]
      · rfl

section Basis

variable {base : Tableau (Exact ℚ)} (h : Derived width base t) (hc : t.Complete)

include h

include hc

theorem Derived.basic_lt (hi : i < t.rows.size) : t.basicColumn i < width :=
  (h.unit i _ (hc i hi)).1

theorem Derived.entry_basic (hi : i < t.rows.size) (hr : r < t.rows.size) :
    t.entry r (t.basicColumn i) = if r = i then 1 else 0 :=
  (h.unit i _ (hc i hi)).2 r hr

theorem Derived.basicColumn_inj (hi : i < t.rows.size) (hr : r < t.rows.size)
    (heq : t.basicColumn r = t.basicColumn i) : r = i := by
  by_contra hne
  have hone := h.entry_basic hc hr hr
  rw [heq, h.entry_basic hc hi hr, if_neg hne, if_pos rfl] at hone
  exact zero_ne_one hone

/-- A basis has as many columns as there are rows, each once. -/
theorem Derived.basis_nodup : t.basis.Nodup ∧ t.basis.length = t.rows.size := by
  rw [basis_eq_map h.head]
  refine ⟨List.nodup_range.map_on fun i hi r hr heq => ?_, by simp⟩
  exact h.basicColumn_inj hc (List.mem_range.mp hr) (List.mem_range.mp hi) heq

theorem Derived.basis_lt (hj : j ∈ t.basis) : j < width := by
  obtain ⟨i, hi, rfl⟩ := (mem_basis h.head).mp hj
  exact h.basic_lt hc hi

end Basis

/-- A pivot exchanges one basic column for another. -/
theorem Derived.inBasis_pivot {base : Tableau (Exact ℚ)} (h : Derived width base t)
    (hc : t.Complete) (hr : r < t.rows.size) (hj : ¬ t.InBasis j) (k : Nat) :
    (t.pivot r j).InBasis k ↔ k = j ∨ t.InBasis k ∧ k ≠ t.basicColumn r := by
  have hr' : r < t.head.size := h.head.symm ▸ hr
  unfold InBasis
  rw [pivot_rows_size]
  constructor
  · rintro ⟨i, hi, rfl⟩
    rw [pivot_basicColumn hr']
    by_cases hir : i = r
    · exact .inl (if_pos hir)
    · rw [if_neg hir]
      exact .inr ⟨⟨i, hi, rfl⟩, fun heq => hir (h.basicColumn_inj hc hr hi heq)⟩
  · rintro (rfl | ⟨⟨i, hi, rfl⟩, hne⟩)
    · exact ⟨r, hr, by rw [pivot_basicColumn hr', if_pos rfl]⟩
    · have hir : i ≠ r := fun he => hne (he ▸ rfl)
      exact ⟨i, hi, by rw [pivot_basicColumn hr', if_neg hir]⟩

/-! ## Sums over the columns -/

/-- The columns that are not basic. -/
def nonbasic (width : Nat) (t : Tableau (Exact ℚ)) : Finset Nat :=
  (Finset.range width).filter fun j => ¬ t.InBasis j

section Sums

variable {base : Tableau (Exact ℚ)} (h : Derived width base t) (hc : t.Complete)

include h hc

/-- A sum over the basic columns, taken row by row. -/
theorem Derived.sum_basic (f : Nat → ℚ) :
    ∑ k ∈ (Finset.range width).filter (fun j => t.InBasis j), f k =
      ∑ i ∈ Finset.range t.rows.size, f (t.basicColumn i) := by
  have hbasic : (Finset.range width).filter (fun j => t.InBasis j) =
      (Finset.range t.rows.size).image t.basicColumn := by
    ext j
    rw [Finset.mem_filter, Finset.mem_image, Finset.mem_range]
    constructor
    · rintro ⟨-, i, hi, rfl⟩
      exact ⟨i, Finset.mem_range.mpr hi, rfl⟩
    · rintro ⟨i, hi, rfl⟩
      have hi' := Finset.mem_range.mp hi
      exact ⟨h.basic_lt hc hi', i, hi', rfl⟩
  have hinj : Set.InjOn t.basicColumn (Finset.range t.rows.size) := by
    intro i hi k hk heq
    exact h.basicColumn_inj hc (by simpa using hk) (by simpa using hi) heq
  rw [hbasic, Finset.sum_image hinj]

/-- A sum over the columns, the basic ones taken row by row. -/
theorem Derived.sum_columns (f : Nat → ℚ) : ∑ k ∈ Finset.range width, f k =
    ∑ i ∈ Finset.range t.rows.size, f (t.basicColumn i) + ∑ k ∈ t.nonbasic width, f k := by
  rw [← Finset.sum_filter_add_sum_filter_not _ (fun j => t.InBasis j), h.sum_basic hc]
  rfl

/-- A row gives its basic column in terms of the others. -/
theorem Derived.sum_row (hi : i < t.rows.size) (z : Nat → ℚ) :
    ∑ k ∈ Finset.range width, t.entry i k * z k =
      z (t.basicColumn i) + ∑ k ∈ t.nonbasic width, t.entry i k * z k := by
  rw [h.sum_columns hc]
  congr 1
  rw [Finset.sum_eq_single i]
  · rw [h.entry_basic hc hi hi, if_pos rfl, one_mul]
  · intro r hr hne
    rw [h.entry_basic hc (Finset.mem_range.mp hr) hi, if_neg (Ne.symm hne), zero_mul]
  · intro hnot
    exact (hnot (Finset.mem_range.mpr hi)).elim

end Sums

/-- How all columns change when column `j` grows by one and no other column that
is not basic changes. -/
def ray (t : Tableau (Exact ℚ)) (j k : Nat) : ℚ :=
  (if k = j then 1 else 0) -
    ∑ i ∈ Finset.range t.rows.size, if t.basicColumn i = k then t.entry i j else 0

theorem ray_of_nonbasic {k : Nat} (hk : ¬ t.InBasis k) : t.ray j k = if k = j then 1 else 0 := by
  unfold ray
  rw [Finset.sum_eq_zero, sub_zero]
  intro i hi
  exact if_neg fun heq => hk ⟨i, Finset.mem_range.mp hi, heq⟩

theorem Derived.ray_basic {base : Tableau (Exact ℚ)} (h : Derived width base t)
    (hc : t.Complete) (hj : ¬ t.InBasis j) (hi : i < t.rows.size) :
    t.ray j (t.basicColumn i) = -t.entry i j := by
  have hne : t.basicColumn i ≠ j := fun heq => hj ⟨i, hi, heq⟩
  unfold ray
  rw [if_neg hne, zero_sub, Finset.sum_eq_single i]
  · rw [if_pos rfl]
  · intro r hr hri
    exact if_neg fun heq => hri (h.basicColumn_inj hc hi (Finset.mem_range.mp hr) heq)
  · intro hnot
    exact (hnot (Finset.mem_range.mpr hi)).elim

/-- **Moving one column moves the basic columns along the equations.** -/
theorem Derived.solves_ray {base : Tableau (Exact ℚ)} (h : Derived width base t)
    (hc : t.Complete) (hj : ¬ t.InBasis j) (hlt : j < width) : t.Solves width (t.ray j) := by
  intro i hi
  rw [h.sum_row hc hi, h.ray_basic hc hj hi, Finset.sum_eq_single j]
  · rw [ray_of_nonbasic hj, if_pos rfl, mul_one, neg_add_cancel]
  · intro k hk hkj
    rw [ray_of_nonbasic (Finset.mem_filter.mp hk).2, if_neg hkj, mul_zero]
  · intro hnot
    exact (hnot (Finset.mem_filter.mpr ⟨Finset.mem_range.mpr hlt, hj⟩)).elim

theorem Solves.add_mul {y : Nat → ℚ} (hz : t.Solves width z) (hy : t.Solves width y) (q : ℚ) :
    t.Solves width fun k => z k + q * y k := by
  intro i hi
  have hsplit : ∑ k ∈ Finset.range width, t.entry i k * (z k + q * y k) =
      ∑ k ∈ Finset.range width, t.entry i k * z k +
        q * ∑ k ∈ Finset.range width, t.entry i k * y k := by
    rw [Finset.mul_sum, ← Finset.sum_add_distrib]
    exact Finset.sum_congr rfl fun k _ => by ring
  rw [hsplit, hz i hi, hy i hi, mul_zero, add_zero]

/-- The costs of the columns after the basic ones have been priced out. -/
def reduced (t : Tableau (Exact ℚ)) (c b : Nat → ℚ) (k : Nat) : ℚ :=
  c k - ∑ i ∈ Finset.range t.rows.size, b i * t.entry i k

theorem Derived.reduced_basic {base : Tableau (Exact ℚ)} (h : Derived width base t)
    (hc : t.Complete) (c b : Nat → ℚ) (hi : i < t.rows.size) :
    t.reduced c b (t.basicColumn i) = c (t.basicColumn i) - b i := by
  unfold reduced
  rw [Finset.sum_eq_single i]
  · rw [h.entry_basic hc hi hi, if_pos rfl, mul_one]
  · intro r hr hri
    rw [h.entry_basic hc hi (Finset.mem_range.mp hr), if_neg hri, mul_zero]
  · intro hnot
    exact (hnot (Finset.mem_range.mpr hi)).elim

/-- Pricing out does not change the cost of a solution. -/
theorem Solves.sum_reduced (hz : t.Solves width z) (c b : Nat → ℚ) :
    ∑ k ∈ Finset.range width, t.reduced c b k * z k = ∑ k ∈ Finset.range width, c k * z k := by
  have hrows : ∑ k ∈ Finset.range width,
      (∑ i ∈ Finset.range t.rows.size, b i * t.entry i k) * z k = 0 := by
    simp only [Finset.sum_mul]
    rw [Finset.sum_comm]
    refine Finset.sum_eq_zero fun i hi => ?_
    have hrow := hz i (Finset.mem_range.mp hi)
    calc ∑ k ∈ Finset.range width, b i * t.entry i k * z k
        = b i * ∑ k ∈ Finset.range width, t.entry i k * z k := by
          rw [Finset.mul_sum]
          exact Finset.sum_congr rfl fun k _ => mul_assoc _ _ _
      _ = 0 := by rw [hrow, mul_zero]
  unfold reduced
  simp only [sub_mul]
  rw [Finset.sum_sub_distrib, hrows, sub_zero]

/-- The difference of two solutions, priced. -/
theorem Derived.sum_sub_priced {base : Tableau (Exact ℚ)} (h : Derived width base t)
    (hc : t.Complete) {y : Nat → ℚ} (hz : t.Solves width z) (hy : t.Solves width y)
    (c b : Nat → ℚ) : ∑ k ∈ Finset.range width, c k * (y k - z k) =
      ∑ i ∈ Finset.range t.rows.size, (c (t.basicColumn i) - b i) *
        (y (t.basicColumn i) - z (t.basicColumn i)) +
      ∑ k ∈ t.nonbasic width, t.reduced c b k * (y k - z k) := by
  have hpriced := (hy.add_mul hz (-1)).sum_reduced c b
  rw [h.sum_columns hc] at hpriced
  have hform : ∀ k, y k - z k = y k + -1 * z k := fun k => by ring
  simp only [hform]
  rw [← hpriced]
  congr 1
  refine Finset.sum_congr rfl fun i hi => ?_
  rw [h.reduced_basic hc c b (Finset.mem_range.mp hi)]

/-! ## Elimination -/

theorem Numeric.entry_ne_zero (h : t.Numeric width) {tolPivot : Exact ℚ} (htol : 0 ≤ tolPivot)
    (hlarge : tolPivot < Scalar.abs (t.get r j)) : t.entry r j ≠ 0 := by
  have hpos := Exact.lt_of_le_of_lt' htol hlarge
  rwa [h.finite, Exact.abs_fin, Exact.zero_def, Exact.fin_lt, abs_pos] at hpos

theorem start_derived {base : Array (Array (Exact ℚ))} (h : (start base).Numeric width) :
    Derived width (start base) (start base) where
  numeric := h
  rows := rfl
  head := by simp [start]
  solves _ := Iff.rfl
  unit i b hb := by
    by_cases hi : i < base.size <;> simp [start, hi] at hb

/-- **Elimination gives a basis.** The tableau has the solutions of the constraint
rows, and the columns asked for are its basic columns. -/
theorem factor?_derived {base : Array (Array (Exact ℚ))} {basic : List Nat} {tolPivot : Exact ℚ}
    (h : (start base).Numeric width) (htol : 0 ≤ tolPivot)
    (hfactor : factor? base basic tolPivot = some t) :
    Derived width (start base) t ∧ t.Complete ∧ ∀ j, t.InBasis j ↔ j ∈ basic := by
  obtain ⟨hderived, -, -, hc, hmem⟩ := factor?_induction (Derived width (start base))
    (start_derived h) (fun u r j hu hr _ hlarge => hu.pivot hr (hu.numeric.entry_ne_zero htol hlarge))
    hfactor
  exact ⟨hderived, hc, hmem⟩

end BranchAndCut.Tableau

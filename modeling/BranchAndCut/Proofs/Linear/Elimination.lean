import BranchAndCut.Proofs.Linear.Matrix
import Mathlib.LinearAlgebra.LinearIndependent.Lemmas

/-! # Elimination in exact numbers

Elimination finds a tableau for columns of the constraint rows exactly if these are
independent. Where it finds no pivot for a column, the tableau reached so far says how the
column depends on those before it. What it finds, and whatever pivots on entries other than
zero make of that, has the solutions of the constraint rows, solved for distinct columns. -/

namespace BranchAndCut

section Independence

variable [Rooted ℚ]

namespace Tableau

variable {t u : Tableau (Exact ℚ)} {base : Array (Array (Exact ℚ))} {width : Nat}
  {basic : List Nat} {i j r : Nat}

/-- Only zero solves the equations with all columns at zero but the given ones. -/
def Independent (width : Nat) (t : Tableau (Exact ℚ)) (cols : List Nat) : Prop :=
  ∀ z, t.Solves width z → (∀ k, k ∉ cols → z k = 0) → ∀ k, z k = 0

/-- The columns for which the equations are solved are independent. -/
theorem Derived.independent {start : Tableau (Exact ℚ)} (h : Derived width start t)
    (hc : t.Complete) (hmem : ∀ j, t.InBasis j ↔ j ∈ basic) : start.Independent width basic := by
  intro z hz hvoid k
  by_cases hk : k ∈ basic
  · obtain ⟨i, hi, rfl⟩ := (hmem k).mpr hk
    have hrow := (h.solves z).mpr hz i hi
    rw [h.sum_row hc hi, Finset.sum_eq_zero, add_zero] at hrow
    · exact hrow
    · intro k hk
      have hnot := (Finset.mem_filter.mp hk).2
      rw [hvoid k fun hin => hnot ((hmem k).mpr hin), mul_zero]
  · exact hvoid k hk

/-! ## Dependent columns -/

/-- A column in terms of the columns that have rows: one of it less its entries in these rows. -/
def dependence (t : Tableau (Exact ℚ)) (j k : Nat) : ℚ :=
  (if k = j then 1 else 0) -
    ∑ r ∈ Finset.range t.rows.size, if t.head.getD r none = some k then t.entry r j else 0

/-- A column that is zero in every row without a column depends on the columns of the others. -/
theorem Derived.solves_dependence {start : Tableau (Exact ℚ)} (h : Derived width start u)
    (hfree : ∀ r < u.rows.size, u.head.getD r none = none → u.entry r j = 0) (hlt : j < width) :
    u.Solves width (u.dependence j) := by
  intro i hi
  have hrow : ∀ r ∈ Finset.range u.rows.size, ∑ k ∈ Finset.range width,
      u.entry i k * (if u.head.getD r none = some k then u.entry r j else 0) =
        if r = i then u.entry r j else 0 := by
    intro r hr
    have hr := Finset.mem_range.mp hr
    cases hhead : u.head.getD r none with
    | none => simp [hfree r hr hhead]
    | some b =>
      obtain ⟨hb, hunit⟩ := h.unit r b hhead
      rw [Finset.sum_eq_single_of_mem b (Finset.mem_range.mpr hb), if_pos rfl, hunit i hi, ite_mul,
        one_mul, zero_mul]
      · exact if_congr eq_comm rfl rfl
      · intro k _ hk
        rw [if_neg fun heq => hk (Option.some.inj heq).symm, mul_zero]
  calc ∑ k ∈ Finset.range width, u.entry i k * u.dependence j k
      = ∑ k ∈ Finset.range width, (u.entry i k * (if k = j then 1 else 0) -
          ∑ r ∈ Finset.range u.rows.size,
            u.entry i k * if u.head.getD r none = some k then u.entry r j else 0) := by
        simp only [dependence, mul_sub, Finset.mul_sum]
    _ = u.entry i j - ∑ r ∈ Finset.range u.rows.size, if r = i then u.entry r j else 0 := by
        rw [Finset.sum_sub_distrib, Finset.sum_comm, Finset.sum_congr rfl hrow]
        simp [hlt]
    _ = 0 := by simp [hi]

/-- **A column independent of those that have rows has a pivot.** -/
theorem Derived.choosePivotRow?_isSome {start : Tableau (Exact ℚ)} (h : Derived width start u)
    (hindependent : start.Independent width basic) (hj : j ∈ basic) (hlt : j < width)
    (hhead : ∀ i b, u.head.getD i none = some b → b ∈ basic ∧ b ≠ j) :
    (u.choosePivotRow? j 0).isSome := by
  by_contra hnone
  rw [Option.not_isSome_iff_eq_none] at hnone
  have hfree : ∀ r < u.rows.size, u.head.getD r none = none → u.entry r j = 0 := by
    intro r hr hhead
    have hsmall := (choosePivotRow?_spec u j 0).2 hnone r hr hhead
    rwa [h.numeric.finite, Exact.abs_fin, Exact.zero_def, Exact.fin_lt, abs_pos, not_not] at hsmall
  have hvoid : ∀ k, k ∉ basic → u.dependence j k = 0 := by
    intro k hk
    unfold dependence
    have hkj : k ≠ j := fun heq => hk (heq ▸ hj)
    rw [if_neg hkj, Finset.sum_eq_zero, sub_zero]
    exact fun r _ => if_neg fun heq => hk (hhead r k heq).1
  have hzero := hindependent _ ((h.solves _).mp (h.solves_dependence hfree hlt)) hvoid j
  unfold dependence at hzero
  rw [if_pos rfl, Finset.sum_eq_zero fun r _ => if_neg fun heq => (hhead r j heq).2 rfl] at hzero
  norm_num at hzero

/-- **Elimination succeeds exactly for independent columns.** -/
theorem factor?_isSome_iff (h : (start base).Numeric width) (hnodup : basic.Nodup)
    (hlength : basic.length = base.size) (hlt : ∀ j ∈ basic, j < width) :
    (factor? base basic 0).isSome ↔ (start base).Independent width basic := by
  have htol : (0 : Exact ℚ) ≤ 0 := by rw [Exact.zero_def, Exact.fin_le]
  constructor
  · intro hsome
    obtain ⟨t, hfactor⟩ := Option.isSome_iff_exists.mp hsome
    obtain ⟨hderived, hc, hmem⟩ := factor?_derived h htol hfactor
    exact hderived.independent hc hmem
  · intro hindependent
    -- the columns that have rows are among those asked for, and not among those to come
    have hrun : ∀ (cols : List Nat) (u : Tableau (Exact ℚ)), Derived width (start base) u →
        cols.Nodup → (∀ j ∈ cols, j ∈ basic) →
        (∀ i b, u.head.getD i none = some b → b ∈ basic ∧ b ∉ cols) →
        (cols.foldlM (fun (u : Tableau (Exact ℚ)) j =>
          (u.choosePivotRow? j 0).map fun r => u.pivot r j) u).isSome := by
      intro cols
      induction cols with
      | nil => exact fun _ _ _ _ _ => rfl
      | cons j cols ih =>
        intro u hu hnodup hsub hhead
        have hj := hsub j List.mem_cons_self
        obtain ⟨hnew, hnodup⟩ := List.nodup_cons.mp hnodup
        obtain ⟨r, hchoose⟩ := Option.isSome_iff_exists.mp
          (hu.choosePivotRow?_isSome hindependent hj (hlt j hj) fun i b hb =>
            ⟨(hhead i b hb).1, fun heq => (hhead i b hb).2 (heq ▸ List.mem_cons_self)⟩)
        obtain ⟨hr, -, hlarge⟩ := (choosePivotRow?_spec u j 0).1 r hchoose
        rw [List.foldlM_cons, hchoose, Option.map_some, Option.bind_eq_bind, Option.bind_some]
        refine ih _ (hu.pivot hr (hu.numeric.entry_ne_zero htol hlarge)) hnodup
          (fun k hk => hsub k (List.mem_cons_of_mem _ hk)) fun i b hb => ?_
        rw [pivot_head (hu.head.symm ▸ hr)] at hb
        split_ifs at hb
        · obtain rfl := Option.some.inj hb
          exact ⟨hj, hnew⟩
        · exact ⟨(hhead i b hb).1, fun hin => (hhead i b hb).2 (List.mem_cons_of_mem _ hin)⟩
    rw [factor?_eq, if_neg (not_not.mpr hlength)]
    refine hrun basic (start base) (start_derived h) hnodup (fun _ => id) fun i b hb => ?_
    by_cases hi : i < base.size <;> simp [start, hi] at hb

/-! ## Pivots after elimination -/

/-- The tableaus of constraint rows: that of a basis, and what pivots make of it. -/
inductive Reached (base : Array (Array (Exact ℚ))) : Tableau (Exact ℚ) → Prop
  | factor {t : Tableau (Exact ℚ)} {basic : List Nat} {tolPivot : Exact ℚ} (htol : 0 ≤ tolPivot)
      (h : factor? base basic tolPivot = some t) : Reached base t
  | pivot {t : Tableau (Exact ℚ)} {r j : Nat} (h : Reached base t) (hr : r < t.rows.size)
      (hp : t.get r j ≠ 0) : Reached base (t.pivot r j)

theorem Reached.derived (h : (start base).Numeric width) (ht : Reached base t) :
    Derived width (start base) t ∧ t.Complete := by
  induction ht with
  | factor htol hfactor =>
    obtain ⟨hderived, hc, -⟩ := factor?_derived h htol hfactor
    exact ⟨hderived, hc⟩
  | pivot _ hr hp ih =>
    obtain ⟨hderived, hc⟩ := ih
    rw [hderived.numeric.finite, Exact.zero_def, ne_eq, Exact.fin.injEq] at hp
    exact ⟨hderived.pivot hr hp, hc.pivot hderived.head hr⟩

end Tableau

/-! ## The columns of a matrix -/

namespace Matrix

variable {a : Matrix (Exact ℚ)} {t : Tableau (Exact ℚ)} {basic : List Nat}

/-- Column `j` of the matrix beside a negative identity. -/
def constraintColumn (a : Matrix (Exact ℚ)) (j : Nat) (i : Fin a.numRows) : ℚ :=
  if j = a.numCols + i then -1 else if j < a.numCols then a.value i j else 0

/-- The tableau is the matrix beside a negative identity, solved for distinct columns. -/
structure Represents (a : Matrix (Exact ℚ)) (t : Tableau (Exact ℚ)) : Prop where
  rows : t.rows.size = a.numRows
  finite : t.Numeric (a.numCols + a.numRows)
  heading : t.basis.Nodup ∧ t.basis.length = a.numRows ∧
    ∀ j ∈ t.basis, j < a.numCols + a.numRows
  complete : ∀ k < a.numRows, t.head.getD k none = some (t.basicColumn k)
  unit : ∀ i < a.numRows, ∀ k < a.numRows, t.get i (t.basicColumn k) = if i = k then 1 else 0
  solves : ∀ z : Nat → ℚ,
    (∀ i, ∑ j ∈ Finset.range (a.numCols + a.numRows), a.constraintColumn j i * z j = 0) ↔
      ∀ i < a.numRows, ∑ j ∈ Finset.range (a.numCols + a.numRows), t.entry i j * z j = 0

theorem Tabulates.solves_iff {base : Array (Array (Exact ℚ))}
    (h : Tabulates a.numRows (a.numCols + a.numRows) base fun i k =>
      if k = a.numCols + i then -1 else if k < a.numCols then a.value i k else 0) (z : Nat → ℚ) :
    (Tableau.start base).Solves (a.numCols + a.numRows) z ↔
      ∀ i, ∑ j ∈ Finset.range (a.numCols + a.numRows), a.constraintColumn j i * z j = 0 := by
  have hrow : ∀ i : Fin a.numRows,
      ∑ j ∈ Finset.range (a.numCols + a.numRows), a.constraintColumn j i * z j =
        ∑ j ∈ Finset.range (a.numCols + a.numRows), (Tableau.start base).entry i j * z j :=
    fun i => Finset.sum_congr rfl fun j hj => by
      rw [h.numeric.2 i i.isLt j (Finset.mem_range.mp hj)]
      rfl
  simp only [hrow, Fin.forall_iff]
  unfold Tableau.Solves
  have hsize : (Tableau.start base).rows.size = a.numRows := h.1
  rw [hsize]

/-- Independence of columns, said of the equations and said of the vectors. -/
theorem Tabulates.independent_iff {base : Array (Array (Exact ℚ))}
    (h : Tabulates a.numRows (a.numCols + a.numRows) base fun i k =>
      if k = a.numCols + i then -1 else if k < a.numCols then a.value i k else 0)
    (hlt : ∀ j ∈ basic, j < a.numCols + a.numRows) :
    (Tableau.start base).Independent (a.numCols + a.numRows) basic ↔
      LinearIndepOn ℚ a.constraintColumn {j | j ∈ basic} := by
  have hset : {j | j ∈ basic} = (basic.toFinset : Set Nat) := by ext; simp
  have hsub : basic.toFinset ⊆ Finset.range (a.numCols + a.numRows) := fun j hj =>
    Finset.mem_range.mpr (hlt j (List.mem_toFinset.mp hj))
  rw [hset, linearIndepOn_finset_iff]
  -- a combination of the columns is a solution that vanishes elsewhere
  have hcombination : ∀ z : Nat → ℚ, (∀ k, k ∉ basic → z k = 0) →
      ((Tableau.start base).Solves (a.numCols + a.numRows) z ↔
        ∑ j ∈ basic.toFinset, z j • a.constraintColumn j = 0) := by
    intro z hvoid
    rw [h.solves_iff, funext_iff]
    refine forall_congr' fun i => ?_
    rw [Finset.sum_apply, ← Finset.sum_subset hsub]
    · simp only [Pi.smul_apply, smul_eq_mul, Pi.zero_apply, mul_comm]
    · intro j _ hj
      rw [hvoid j fun hin => hj (List.mem_toFinset.mpr hin), mul_zero]
  constructor
  · intro hindependent g hg j hj
    let z : Nat → ℚ := fun k => if k ∈ basic then g k else 0
    have hvoid : ∀ k, k ∉ basic → z k = 0 := fun k hk => if_neg hk
    have hz : ∑ k ∈ basic.toFinset, z k • a.constraintColumn k = 0 := by
      rw [← hg]
      refine Finset.sum_congr rfl fun k hk => ?_
      rw [show z k = g k from if_pos (List.mem_toFinset.mp hk)]
    have hzero := hindependent z ((hcombination z hvoid).mpr hz) hvoid j
    rwa [show z j = g j from if_pos (List.mem_toFinset.mp hj)] at hzero
  · intro hindependent z hz hvoid k
    by_cases hk : k ∈ basic
    · exact hindependent z ((hcombination z hvoid).mp hz) k (List.mem_toFinset.mpr hk)
    · exact hvoid k hk

/-- **Elimination and pivoting keep the tableau equivalent to the matrix.** Distinct columns
can be factored exactly if they are independent, and every tableau reached from there by
pivots on entries other than zero is the matrix solved for its heading. -/
theorem WellFormed.elimination (h : a.WellFormed)
    (hfinite : ∀ vec ∈ a.vectors, Stored a.numRows vec) :
    ∃ base, Tableau.constraintRows? a = some base ∧
      (∀ basic : List Nat, basic.Nodup → basic.length = a.numRows →
        (∀ j ∈ basic, j < a.numCols + a.numRows) →
        ((Tableau.factor? base basic 0).isSome ↔
          LinearIndepOn ℚ a.constraintColumn {j | j ∈ basic})) ∧
      ∀ t, Tableau.Reached base t → a.Represents t := by
  obtain ⟨base, hbase, htab⟩ := constraintRows?_tabulates h hfinite
  obtain ⟨hnumeric, -⟩ := htab.numeric
  refine ⟨base, hbase, fun basic hnodup hlength hlt => ?_, fun t ht => ?_⟩
  · rw [Tableau.factor?_isSome_iff hnumeric hnodup (hlength.trans htab.1.symm) hlt,
      htab.independent_iff hlt]
  · obtain ⟨hderived, hc⟩ := ht.derived hnumeric
    have hrows : t.rows.size = a.numRows := hderived.rows.trans htab.1
    obtain ⟨hnodup, hlength⟩ := hderived.basis_nodup hc
    refine ⟨hrows, hderived.numeric, ⟨hnodup, hlength.trans hrows, fun j => hderived.basis_lt hc⟩,
      fun k hk => hc k (hrows.symm ▸ hk), fun i hi k hk => ?_, fun z => ?_⟩
    · rw [← hrows] at hi hk
      rw [hderived.numeric.finite, hderived.entry_basic hc hk hi]
      split_ifs
      · rfl
      · rfl
    · rw [← htab.solves_iff, ← hderived.solves]
      unfold Tableau.Solves
      rw [hrows]

end Matrix

end Independence

/-- Two columns, of which one is twice the other, cannot both be basic; one of them and a
slack can, and a pivot brings in the other. -/
theorem Matrix.elimination_twice :
    let a : Matrix (Exact ℚ) :=
      ⟨2, 2, .byColumn, #[[(0, .fin 1), (1, .fin 2)], [(0, .fin 2), (1, .fin 4)]]⟩
    ¬ LinearIndepOn ℚ a.constraintColumn {j | j ∈ [0, 1]} ∧
      LinearIndepOn ℚ a.constraintColumn {j | j ∈ [0, 3]} ∧
      ∃ base t, Tableau.factor? base [0, 3] 0 = some t ∧ a.Represents (t.pivot 1 1) := by
  intro a
  let base : Array (Array (Exact ℚ)) :=
    #[#[.fin 1, .fin 2, .fin (-1), .fin 0], #[.fin 2, .fin 4, .fin 0, .fin (-1)]]
  have hbase : Tableau.constraintRows? a = some base := by decide +kernel
  have hwf : a.WellFormed := ⟨rfl, by decide⟩
  have hfinite : ∀ vec ∈ a.vectors, Matrix.Stored a.numRows vec := by
    unfold Matrix.Stored
    decide +kernel
  obtain ⟨_, hbase', hfactor, hreached⟩ := hwf.elimination hfinite
  obtain rfl := Option.some.inj (hbase.symm.trans hbase')
  have hentry : (Tableau.factor? base [0, 3] 0).map (·.get 1 1) = some (.fin 2) := by
    decide +kernel
  obtain ⟨t, ht, hget⟩ := Option.map_eq_some_iff.mp hentry
  have hreach := Tableau.Reached.factor (by decide +kernel) ht
  refine ⟨(hfactor [0, 1] (by decide) rfl (by decide)).not.mp (by decide +kernel),
    (hfactor [0, 3] (by decide) rfl (by decide)).mp (by rw [ht]; rfl), _, t, ht, ?_⟩
  refine hreached _ (hreach.pivot ?_ ?_)
  · rw [(hreached t hreach).rows]
    decide
  · rw [hget]
    decide +kernel

end BranchAndCut

import BranchAndCut.Proofs.Linear.Triplets
import BranchAndCut.Proofs.Lp.Basis
import BranchAndCut.Proofs.Lp.Restart

/-! # Bases that can be installed

In exact numbers a solver takes a given basis if it has a status for every column and row,
as many of them basic as there are rows, and if the columns that are basic are independent.
A solve returns such a basis, whatever ends it. -/

namespace BranchAndCut.Lp

/-- A status for each column and row; as many are basic as there are rows, on independent columns. -/
structure Problem.HasBasis (p : Problem (Exact ℚ)) (b : Basis) : Prop where
  cols : b.cols.length = p.numCols
  rows : b.rows.length = p.numRows
  count : b.numBasic = p.numRows
  independent : p.a.Independent {j | b.all[j]? = some .basic}

namespace Basis

variable {b : Basis} {j : Nat}

theorem getElem?_all_col (hj : j < b.cols.length) : b.all[j]? = b.cols[j]? := List.getElem?_append_left hj

theorem getElem?_all_row (b : Basis) (i : Nat) : b.all[b.cols.length + i]? = b.rows[i]? := by
  rw [all, List.getElem?_append_right (Nat.le_add_right _ _), Nat.add_sub_cancel_left]

/-- The columns that are basic, in order. -/
def heading (b : Basis) : List Nat := (List.range b.all.length).filter fun j => b.all[j]? == some .basic

theorem mem_heading : j ∈ b.heading ↔ b.all[j]? = some .basic := by
  unfold heading
  rw [List.mem_filter, List.mem_range, beq_iff_eq]
  exact and_iff_right_of_imp fun h => (List.getElem?_eq_some_iff.mp h).1

theorem heading_nodup (b : Basis) : b.heading.Nodup := List.nodup_range.filter _

theorem lt_of_mem_heading (h : j ∈ b.heading) : j < b.all.length := List.mem_range.mp (List.mem_filter.mp h).1

theorem setOf_heading (b : Basis) : {j | j ∈ b.heading} = {j | b.all[j]? = some .basic} :=
  Set.ext fun _ => mem_heading

theorem heading_length (b : Basis) : b.heading.length = b.numBasic := by
  have hall : b.all.map some = (List.range b.all.length).map fun j => b.all[j]? := by
    refine List.ext_getElem (by simp) fun i hi _ => ?_
    have hi' : i < b.all.length := by simpa using hi
    simp [hi']
  have hcount : b.numBasic = (b.all.map some).count (some .basic) :=
    (List.count_map_of_injective b.all some (Option.some_injective _) .basic).symm
  rw [hcount, hall, List.count_eq_countP, List.countP_map, List.countP_eq_length_filter]
  rfl

end Basis

variable {p : Problem (Exact ℚ)} {s : Simplex (Exact ℚ)} {b : Basis}

theorem Problem.HasBasis.length (h : p.HasBasis b) : b.all.length = p.width := by
  unfold Basis.all
  rw [List.length_append, h.cols, h.rows]
  rfl

variable [Rooted ℚ]

/-- Problems whose parts are meaningful are accepted. -/
theorem Problem.Valid.validate (h : p.Valid) : p.validate = .ok () := by
  have hcost : ¬ (p.cost.any fun v => !Scalar.isFinite v) = true := by
    rw [Array.any_eq_true']
    rintro ⟨v, hv, hinf⟩
    simp [h.cost v hv] at hinf
  have hentries : ¬ ∃ i j v, (i, j, v) ∈ p.a.entries ∧ (!Scalar.isFinite v) = true := by
    rintro ⟨i, j, v, hv, hinf⟩
    unfold Matrix.entries at hv
    rw [h.byColumn] at hv
    obtain ⟨⟨vec, o⟩, hvec, hv⟩ := List.mem_flatMap.mp hv
    obtain ⟨e, he, heq⟩ := List.mem_map.mp hv
    have hvec := List.fst_mem_of_mem_zipIdx hvec
    have hfin := (h.stored vec (Array.mem_toList_iff.mp hvec) e he).2
    obtain ⟨-, -, rfl⟩ : e.1 = i ∧ o = j ∧ e.2 = v := by simpa using heq
    rw [hfin] at hinf
    cases hinf
  have hbounds : p.boundPairs.find? badBounds = none := by
    rw [List.find?_eq_none]
    intro bounds hbounds
    rw [h.bounds bounds hbounds]
    exact Bool.false_ne_true
  unfold Problem.validate
  simp only [h.rows, h.cols, h.byColumn, h.rowUpper, h.colLower, h.colUpper, hcost, List.any_eq_true, Prod.exists,
    hentries, hbounds, ne_eq, not_true_eq_false, or_self, if_false]
  rfl

namespace Problem.HasBasis

/-- The columns that are basic are independent vectors. -/
theorem linearIndepOn (h : p.HasBasis b) (hwf : p.a.WellFormed)
    (hshape : p.a.numRows = p.numRows ∧ p.a.numCols = p.numCols)
    (hstored : ∀ vec ∈ p.a.vectors, Matrix.Stored p.a.numRows vec) :
    LinearIndepOn ℚ p.a.constraintColumn {j | b.all[j]? = some .basic} := by
  obtain ⟨base, -, htab⟩ := Matrix.constraintRows?_tabulates hwf hstored
  rw [← b.setOf_heading, ← htab.independent_iff fun j hj => ?_, htab.independent, b.setOf_heading]
  · exact h.independent
  · rw [hshape.1, hshape.2]
    exact (Basis.lt_of_mem_heading hj).trans_eq h.length

/-- **Such a basis is taken.** -/
theorem installed (h : p.HasBasis b) (hv : p.Valid) (hwf : p.a.WellFormed) (hs : s.Of p)
    (htol : s.settings.tolPivot = 0) : (s.installBasis b).2 = true := by
  obtain ⟨base, hbase, htab⟩ := Matrix.constraintRows?_tabulates hwf hv.stored
  obtain rfl := Option.some.inj (hbase.symm.trans hs.base)
  have hbasic : ((List.range s.width).filter fun j => (s.installed b).getD j .basic == .basic) = b.heading := by
    unfold Basis.heading
    rw [hs.width, h.length]
    refine List.filter_congr fun j hj => ?_
    have hlt : j < b.all.length := (List.mem_range.mp hj).trans_eq h.length.symm
    have hnonbasic : s.sanitizeNonbasic j b.all[j] ≠ .basic := by
      unfold Simplex.sanitizeNonbasic
      split
      · split
        · nofun
        · exact s.nonbasicDefault_ne_basic j
      · split
        · nofun
        · exact s.nonbasicDefault_ne_basic j
      · exact s.nonbasicDefault_ne_basic j
    rw [Simplex.installed_getD hlt, List.getD_eq_getElem?_getD, List.getElem?_eq_getElem hlt, Option.getD_some,
      Bool.eq_iff_iff, beq_iff_eq, beq_iff_eq, Option.some.injEq]
    split
    · next hst => exact iff_of_true rfl hst
    · next hst => exact iff_of_false hnonbasic hst
  have hlt : ∀ j ∈ b.heading, j < p.a.numCols + p.a.numRows := fun j hj => by
    rw [hv.cols, hv.rows]
    exact (Basis.lt_of_mem_heading hj).trans_eq h.length
  have hlength : b.heading.length = s.base.size := by
    rw [b.heading_length, h.count, ← hv.rows]
    exact htab.1.symm
  have hfactor : (s.factored? b).isSome := by
    unfold Simplex.factored?
    rw [hbasic, htol, Tableau.factor?_isSome_iff htab.numeric.1 b.heading_nodup hlength hlt,
      htab.independent, b.setOf_heading]
    exact h.independent
  obtain ⟨t, ht⟩ := Option.isSome_iff_exists.mp hfactor
  rw [Simplex.installBasis_eq, if_neg, ht]
  rw [h.cols, h.rows, h.count, hs.numCols, hs.numRows]
  simp

end Problem.HasBasis

/-- **A solve returns a basis.** -/
theorem Simplex.solve_hasBasis (hv : p.Valid) (hwf : p.a.WellFormed) (hs : s.Of p) (htol : 0 ≤ s.settings.tolPivot)
    (warmStart : Option Basis) : p.HasBasis (s.solve warmStart).1.basis := by
  obtain ⟨hs', -, t, hb, -⟩ := solve_seated hv hwf hs rfl htol warmStart
  have hbasis : (s.solve warmStart).1.basis =
      { cols := ((s.solve warmStart).2.status.extract 0 (s.solve warmStart).2.numCols).toList
        rows := ((s.solve warmStart).2.status.extract (s.solve warmStart).2.numCols
          (s.solve warmStart).2.width).toList } := by
    rw [solve_eq]
    rfl
  rw [hbasis]
  generalize (s.solve warmStart).2 = s' at hs' hb
  have hall : s'.status.extract 0 s'.numCols ++ s'.status.extract s'.numCols s'.width = s'.status := by
    rw [Array.extract_append_extract, hs'.width, ← hs'.status]
    simp
  have hall' : ∀ cols rows : Array ColumnStatus, cols ++ rows = s'.status →
      Basis.all { cols := cols.toList, rows := rows.toList } = s'.status.toList := fun cols rows h => by
    rw [← h, Array.toList_append, Basis.all]
  have hset : {j | s'.status.toList[j]? = some .basic} = {j | j ∈ t.basis} := by
    ext j
    obtain ⟨-, -, hmem⟩ := hb.heading
    show s'.status.toList[j]? = some .basic ↔ j ∈ t.basis
    rw [hmem, statusOf, ← hs'.status, Array.getElem?_toList, Array.getD_eq_getD_getElem?]
    constructor
    · intro hj
      exact ⟨(Array.getElem?_eq_some_iff.mp hj).1, by rw [hj]; rfl⟩
    · rintro ⟨hlt, hst⟩
      rw [Array.getElem?_eq_getElem hlt] at hst ⊢
      exact congrArg some hst
  have hsize : s'.status.size = p.numCols + p.numRows := hs'.status
  obtain ⟨base, hbase, htab⟩ := Matrix.constraintRows?_tabulates hwf hv.stored
  obtain rfl := Option.some.inj (hbase.symm.trans hs'.base)
  constructor
  · rw [Array.length_toList, Array.size_extract, hs'.numCols]
    omega
  · rw [Array.length_toList, Array.size_extract, hs'.numCols, hs'.width]
    unfold Problem.width
    omega
  · rw [Basis.numBasic, hall' _ _ hall, hb.count_basic hs', hb.rows_size hs' hv hwf]
  · rw [hall' _ _ hall, hset, ← htab.independent, hv.cols, hv.rows]
    exact hb.derived.independent hb.complete fun j => (Tableau.mem_basis hb.derived.head).symm

end BranchAndCut.Lp

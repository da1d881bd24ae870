import BranchAndCut.Proofs.Linear.Tableau

/-! # Sparse matrices as linear maps

A matrix compressed along columns stands for the matrix of the sums of its stored
values. The products and the constraint rows computed from it are those of that
matrix. -/

namespace BranchAndCut.Matrix

variable [Rooted ℚ] {a : Matrix (Exact ℚ)} {i j m w : Nat}

/-- The sum of the values that a compressed vector stores for an index. -/
def total (vec : List (Nat × Exact ℚ)) (i : Nat) : ℚ :=
  ((vec.filter fun e => e.1 == i).map fun e => e.2.toField).sum

/-- The entry of the matrix in row `i` and column `j`. -/
def value (a : Matrix (Exact ℚ)) (i j : Nat) : ℚ := total (a.vectors.getD j []) i

/-- Row `i` of the product with a vector. -/
def apply (a : Matrix (Exact ℚ)) (x : Nat → ℚ) (i : Nat) : ℚ :=
  ∑ j ∈ Finset.range a.numCols, a.value i j * x j

/-- Entry `j` of the product of the transpose with a vector. -/
def applyTranspose (a : Matrix (Exact ℚ)) (y : Nat → ℚ) (j : Nat) : ℚ :=
  ∑ i ∈ Finset.range a.numRows, y i * a.value i j

/-- A vector for each column, with row indices in range. -/
structure WellFormed {K : Type} (a : Matrix K) : Prop where
  vectors : a.vectors.size = a.numCols
  inner : ∀ vec ∈ a.vectors, ∀ e ∈ vec, e.1 < a.numRows

/-- A compressed vector below row `m`. -/
def Stored (m : Nat) (vec : List (Nat × Exact ℚ)) : Prop :=
  ∀ e ∈ vec, e.1 < m ∧ e.2 = .fin e.2.toField

omit [Rooted ℚ] in
theorem total_cons (k : Nat) (v : Exact ℚ) (vec : List (Nat × Exact ℚ)) (i : Nat) :
    total ((k, v) :: vec) i = (if i = k then v.toField else 0) + total vec i := by
  unfold total
  by_cases h : i = k
  · simp [h]
  · simp [h, Ne.symm h]

omit [Rooted ℚ] in
theorem sum_total {vec : List (Nat × Exact ℚ)} (h : Stored m vec) (f : Nat → ℚ) :
    ∑ i ∈ Finset.range m, f i * total vec i = (vec.map fun e => f e.1 * e.2.toField).sum := by
  induction vec with
  | nil => simp [total]
  | cons e vec ih =>
    obtain ⟨k, v⟩ := e
    have hk : k ∈ Finset.range m := Finset.mem_range.mpr (h (k, v) (by simp)).1
    have hrest := ih fun e he => h e (by simp [he])
    simp only [total_cons, mul_add, mul_ite, mul_zero, Finset.sum_add_distrib, hrest,
      Finset.sum_ite_eq', hk, if_true, List.map_cons, List.sum_cons]

omit [Rooted ℚ] in
theorem exists_mem_entries {vec : List (Nat × Exact ℚ)} (hvec : vec ∈ a.vectors)
    {e : Nat × Exact ℚ} (he : e ∈ vec) : ∃ x ∈ a.entries, x.2.2 = e.2 := by
  obtain ⟨o, ho, rfl⟩ := Array.mem_iff_getElem.mp hvec
  have hzip : (a.vectors[o], o) ∈ a.vectors.toList.zipIdx := by
    rw [List.mem_zipIdx_iff_getElem?]
    simp [ho]
  unfold entries
  cases a.orientation with
  | byColumn =>
    exact ⟨(e.1, o, e.2), List.mem_flatMap.mpr ⟨_, hzip, List.mem_map.mpr ⟨e, he, rfl⟩⟩, rfl⟩
  | byRow =>
    exact ⟨(o, e.1, e.2), List.mem_flatMap.mpr ⟨_, hzip, List.mem_map.mpr ⟨e, he, rfl⟩⟩, rfl⟩

/-! ## Constraint rows -/

/-- Rows of one length that hold the values of a function. -/
def Tabulates (m w : Nat) (rows : Array (Array (Exact ℚ))) (f : Nat → Nat → ℚ) : Prop :=
  rows.size = m ∧ ∀ i < m, (rows.getD i #[]).size = w ∧
    ∀ k < w, (rows.getD i #[]).getD k 0 = .fin (f i k)

theorem Tabulates.modify {rows : Array (Array (Exact ℚ))} {f : Nat → Nat → ℚ}
    (h : Tabulates m w rows f) (i₀ j : Nat) (q : ℚ) :
    Tabulates m w (rows.modify i₀ fun row => row.modify j (· + .fin q))
      fun i k => f i k + if i = i₀ ∧ k = j then q else 0 := by
  obtain ⟨hsize, hrows⟩ := h
  refine ⟨by rw [Array.size_modify, hsize], fun i hi => ?_⟩
  obtain ⟨hwidth, hvalues⟩ := hrows i hi
  rw [getD_modify, hsize]
  by_cases hii : i = i₀
  · have hi₀ : i₀ < m := hii ▸ hi
    rw [if_pos ⟨hii, hi₀⟩]
    refine ⟨by rw [Array.size_modify, hwidth], fun k hk => ?_⟩
    rw [getD_modify, hwidth, hvalues k hk]
    dsimp only
    by_cases hkj : k = j
    · rw [if_pos ⟨hkj, hkj ▸ hk⟩, if_pos ⟨hii, hkj⟩, Exact.fin_add]
    · rw [if_neg fun h => hkj h.1, if_neg fun h => hkj h.2, add_zero]
  · rw [if_neg fun h => hii h.1]
    refine ⟨hwidth, fun k hk => ?_⟩
    dsimp only
    rw [hvalues k hk, if_neg fun h => hii h.1, add_zero]

theorem fill_column {vec : List (Nat × Exact ℚ)} (hvec : Stored m vec)
    {rows : Array (Array (Exact ℚ))} {f : Nat → Nat → ℚ} (h : Tabulates m w rows f) (j : Nat) :
    ∃ rows', vec.foldlM (fun rows (i, v) =>
        if i < m then some (rows.modify i fun row => row.modify j (· + v)) else none) rows
          = some rows' ∧
      Tabulates m w rows' fun i k => f i k + if k = j then total vec i else 0 := by
  induction vec generalizing rows f with
  | nil => exact ⟨rows, rfl, by simpa [total] using h⟩
  | cons e vec ih =>
    obtain ⟨i₀, v⟩ := e
    obtain ⟨hi₀, hv⟩ := hvec (i₀, v) (by simp)
    obtain ⟨rows', hfold, hrows⟩ := ih (fun e he => hvec e (by simp [he]))
      (h.modify i₀ j v.toField)
    refine ⟨rows', ?_, ?_⟩
    · dsimp only at hi₀ hv
      rw [← hv] at hfold
      rw [List.foldlM_cons]
      dsimp only
      rw [if_pos hi₀]
      exact hfold
    · convert hrows using 3 with i k
      rw [total_cons]
      by_cases hk : k = j
      · by_cases hi : i = i₀ <;> simp [hk, hi, add_assoc]
      · simp [hk]

theorem fill_columns {l : List (List (Nat × Exact ℚ))} (hl : ∀ vec ∈ l, Stored m vec)
    {rows : Array (Array (Exact ℚ))} {f : Nat → Nat → ℚ} (h : Tabulates m w rows f) (s : Nat) :
    ∃ rows', (l.zipIdx s).foldlM (fun rows (vec, j) => vec.foldlM (fun rows (i, v) =>
        if i < m then some (rows.modify i fun row => row.modify j (· + v)) else none) rows) rows
          = some rows' ∧
      Tabulates m w rows' fun i k =>
        f i k + if s ≤ k ∧ k < s + l.length then total (l.getD (k - s) []) i else 0 := by
  induction l generalizing rows f s with
  | nil =>
    refine ⟨rows, rfl, ?_⟩
    convert h using 3 with i k
    rw [if_neg (by simp), add_zero]
  | cons vec l ih =>
    obtain ⟨rows₁, hcolumn, hrows₁⟩ := fill_column (hl vec (by simp)) h s
    obtain ⟨rows', hfold, hrows'⟩ := ih (fun vec hvec => hl vec (by simp [hvec])) hrows₁ (s + 1)
    refine ⟨rows', ?_, ?_⟩
    · rw [List.zipIdx_cons, List.foldlM_cons]
      dsimp only
      rw [hcolumn]
      exact hfold
    · convert hrows' using 3 with i k
      rw [add_assoc, List.length_cons]
      congr 1
      by_cases hk : k = s
      · subst hk
        simp
      · by_cases hlt : s < k
        · obtain ⟨c, rfl⟩ : ∃ c, k = s + 1 + c := ⟨k - s - 1, by omega⟩
          have hsub : s + 1 + c - s = c + 1 := by omega
          have hsub' : s + 1 + c - (s + 1) = c := by omega
          rw [hsub, hsub', List.getD_cons_succ]
          by_cases hc : c < l.length
          · rw [if_pos (by omega), if_neg hk, if_pos (by omega), zero_add]
          · rw [if_neg (by omega), if_neg hk, if_neg (by omega), zero_add]
        · rw [if_neg (by omega), if_neg hk, if_neg (by omega), zero_add]

/-- **The constraint rows are those of the matrix beside a negative identity.** -/
theorem constraintRows?_tabulates (h : a.WellFormed) (hfin : ∀ vec ∈ a.vectors, Stored a.numRows vec) :
    ∃ rows, Tableau.constraintRows? a = some rows ∧
      Tabulates a.numRows (a.numCols + a.numRows) rows fun i k =>
        if k = a.numCols + i then -1 else if k < a.numCols then a.value i k else 0 := by
  have hzeros : Tabulates a.numRows (a.numCols + a.numRows)
      (Array.replicate a.numRows (Array.replicate (a.numCols + a.numRows) (0 : Exact ℚ)))
      fun _ _ => 0 := by
    refine ⟨Array.size_replicate, fun i hi => ?_⟩
    have hrow : (Array.replicate a.numRows (Array.replicate (a.numCols + a.numRows)
        (0 : Exact ℚ))).getD i #[] = Array.replicate (a.numCols + a.numRows) 0 := by simp [hi]
    rw [hrow]
    refine ⟨Array.size_replicate, fun k hk => ?_⟩
    simp [hk, Exact.zero_def]
  obtain ⟨rows, hfold, hsize, hrows⟩ :=
    fill_columns (l := a.vectors.toList) (fun vec hvec => hfin vec (by simpa using hvec)) hzeros 0
  refine ⟨rows.mapIdx fun i row => row.setIfInBounds (a.numCols + i) (-1), ?_, ?_, ?_⟩
  · unfold Tableau.constraintRows?
    dsimp only
    rw [hfold]
    rfl
  · rw [Array.size_mapIdx, hsize]
  · intro i hi
    obtain ⟨hwidth, hvalues⟩ := hrows i hi
    rw [getD_mapIdx _ _ _ #[], if_pos (hsize ▸ hi)]
    refine ⟨by rw [Array.size_setIfInBounds, hwidth], fun k hk => ?_⟩
    rw [getD_setIfInBounds, hwidth, hvalues k hk]
    dsimp only
    by_cases hslack : k = a.numCols + i
    · rw [if_pos ⟨hslack, by omega⟩, if_pos hslack, Exact.one_def, Exact.fin_neg]
    · rw [if_neg fun h => hslack h.1, if_neg hslack, zero_add, Array.length_toList, h.vectors]
      simp [value]

theorem Tabulates.numeric {rows : Array (Array (Exact ℚ))} {f : Nat → Nat → ℚ}
    (h : Tabulates m w rows f) : (Tableau.start rows).Numeric w ∧
      ∀ i < m, ∀ k < w, (Tableau.start rows).entry i k = f i k := by
  obtain ⟨hsize, hrows⟩ := h
  have hget : ∀ i < m, ∀ k < w, (Tableau.start rows).get i k = .fin (f i k) :=
    fun i hi => (hrows i hi).2
  have hvoid : ∀ i k, ¬ (i < m ∧ k < w) → (Tableau.start rows).get i k = .fin 0 := by
    intro i k hout
    unfold Tableau.get Tableau.start
    dsimp only
    by_cases hi : i < m
    · rw [getD_of_size_le _ _ (by rw [(hrows i hi).1]; exact not_lt.mp fun hk => hout ⟨hi, hk⟩),
        Exact.zero_def]
    · rw [getD_of_size_le rows _ (by rw [hsize]; exact not_lt.mp hi), ← Exact.zero_def]
      rfl
  refine ⟨⟨fun i hi => (hrows i (hsize ▸ hi)).1, fun i k => ?_⟩, fun i hi k hk =>
    Tableau.entry_of_get (hget i hi k hk)⟩
  by_cases hin : i < m ∧ k < w
  · rw [Tableau.entry_of_get (hget i hin.1 k hin.2), hget i hin.1 k hin.2]
  · rw [Tableau.entry_of_get (hvoid i k hin), hvoid i k hin]

/-! ## Slack columns

The slack columns of the constraint rows are the same over all numbers. -/

section Slacks

omit [Rooted ℚ]

variable {K : Type} [Scalar K] {n : Nat} {rows : Array (Array K)}

/-- Rows of one length that hold zeros from column `n` on. -/
def BlankFrom (n m w : Nat) (rows : Array (Array K)) : Prop :=
  rows.size = m ∧ ∀ i < m, (rows.getD i #[]).size = w ∧
    ∀ k, n ≤ k → (rows.getD i #[]).getD k 0 = 0

theorem BlankFrom.modify (h : BlankFrom n m w rows) (hj : j < n) (i : Nat) (v : K) :
    BlankFrom n m w (rows.modify i fun row => row.modify j (· + v)) := by
  refine ⟨by rw [Array.size_modify, h.1], fun i' hi' => ?_⟩
  obtain ⟨hwidth, hzero⟩ := h.2 i' hi'
  rw [getD_modify]
  split_ifs
  · refine ⟨by rw [Array.size_modify, hwidth], fun k hk => ?_⟩
    rw [getD_modify, if_neg (by omega), hzero k hk]
  · exact ⟨hwidth, hzero⟩

theorem BlankFrom.fill {vec : List (Nat × K)} (hvec : ∀ e ∈ vec, e.1 < m) (hj : j < n)
    (h : BlankFrom n m w rows) : ∃ rows', vec.foldlM (fun rows (i, v) =>
        if i < m then some (rows.modify i fun row => row.modify j (· + v)) else none) rows
          = some rows' ∧ BlankFrom n m w rows' := by
  induction vec generalizing rows with
  | nil => exact ⟨rows, rfl, h⟩
  | cons e vec ih =>
    obtain ⟨rows', hfold, hrows'⟩ :=
      ih (fun e he => hvec e (List.mem_cons_of_mem _ he)) (h.modify hj e.1 e.2)
    refine ⟨rows', ?_, hrows'⟩
    rw [List.foldlM_cons]
    dsimp only
    rw [if_pos (hvec e List.mem_cons_self)]
    exact hfold

theorem BlankFrom.fill_columns {l : List (List (Nat × K))} (hl : ∀ vec ∈ l, ∀ e ∈ vec, e.1 < m)
    (s : Nat) (hs : s + l.length ≤ n) (h : BlankFrom n m w rows) :
    ∃ rows', (l.zipIdx s).foldlM (fun rows (vec, j) => vec.foldlM (fun rows (i, v) =>
        if i < m then some (rows.modify i fun row => row.modify j (· + v)) else none) rows) rows
          = some rows' ∧ BlankFrom n m w rows' := by
  induction l generalizing rows s with
  | nil => exact ⟨rows, rfl, h⟩
  | cons vec l ih =>
    rw [List.length_cons] at hs
    obtain ⟨rows₁, hcolumn, hrows₁⟩ := h.fill (hl vec List.mem_cons_self) (show s < n by omega)
    obtain ⟨rows', hfold, hrows'⟩ :=
      ih (fun vec hvec => hl vec (List.mem_cons_of_mem _ hvec)) (s + 1) (by omega) hrows₁
    refine ⟨rows', ?_, hrows'⟩
    rw [List.zipIdx_cons, List.foldlM_cons]
    dsimp only
    rw [hcolumn]
    exact hfold

theorem WellFormed.constraintRows?_slacks {a : Matrix K} (h : a.WellFormed) :
    ∃ base, Tableau.constraintRows? a = some base ∧ base.size = a.numRows ∧
      Tableau.EndsInSlacks a.numCols base := by
  have hzeros : BlankFrom a.numCols a.numRows (a.numCols + a.numRows)
      (Array.replicate a.numRows (Array.replicate (a.numCols + a.numRows) (0 : K))) := by
    refine ⟨Array.size_replicate, fun i hi => ?_⟩
    have hrow : (Array.replicate a.numRows (Array.replicate (a.numCols + a.numRows)
        (0 : K))).getD i #[] = Array.replicate (a.numCols + a.numRows) 0 := by simp [hi]
    rw [hrow]
    exact ⟨Array.size_replicate, fun k _ => getD_replicate _ _ _⟩
  obtain ⟨rows, hfold, hsize, hrows⟩ := BlankFrom.fill_columns (l := a.vectors.toList)
    (fun vec hvec => h.inner vec (by simpa using hvec)) 0 (by simp [h.vectors]) hzeros
  refine ⟨rows.mapIdx fun i row => row.setIfInBounds (a.numCols + i) (-1), ?_, ?_, ?_⟩
  · unfold Tableau.constraintRows?
    dsimp only
    rw [hfold]
    rfl
  · rw [Array.size_mapIdx, hsize]
  · intro i hi k hk
    rw [Array.size_mapIdx] at hi hk
    obtain ⟨hwidth, hzero⟩ := hrows i (hsize ▸ hi)
    rw [getD_mapIdx _ _ _ #[], if_pos hi, getD_setIfInBounds, hwidth, hzero _ (by omega)]
    exact if_congr (by omega) rfl rfl

end Slacks

/-! ## Products -/

/-- An array of numbers. -/
def Lists (y : Array (Exact ℚ)) (f : Nat → ℚ) : Prop := ∀ k < y.size, y.getD k 0 = .fin (f k)

theorem Lists.modify {y : Array (Exact ℚ)} {f : Nat → ℚ} (h : Lists y f) (i : Nat) (q : ℚ) :
    Lists (y.modify i (· + .fin q)) fun k => f k + if k = i then q else 0 := by
  intro k hk
  rw [Array.size_modify] at hk
  rw [getD_modify, h k hk]
  dsimp only
  by_cases hki : k = i
  · rw [if_pos ⟨hki, hki ▸ hk⟩, if_pos hki, Exact.fin_add]
  · rw [if_neg fun h => hki h.1, if_neg hki, add_zero]

theorem foldl_entries {m : Nat} {vec : List (Nat × Exact ℚ)} (hvec : Stored m vec) (x : ℚ)
    {y : Array (Exact ℚ)} {f : Nat → ℚ} (h : Lists y f) :
    Lists (vec.foldl (fun y e => y.modify e.1 (· + .fin 1 * e.2 * .fin x)) y)
        (fun k => f k + total vec k * x) ∧
      (vec.foldl (fun y e => y.modify e.1 (· + .fin 1 * e.2 * .fin x)) y).size = y.size := by
  induction vec generalizing y f with
  | nil => exact ⟨by simpa [total] using h, rfl⟩
  | cons e vec ih =>
    obtain ⟨i, v⟩ := e
    have hv : v = .fin v.toField := (hvec (i, v) (by simp)).2
    have hterm : Exact.fin 1 * v * .fin x = .fin (v.toField * x) := by
      rw [hv, Exact.fin_mul, Exact.fin_mul, one_mul, Exact.toField_fin]
    obtain ⟨hlists, hsize⟩ := ih (fun e he => hvec e (by simp [he])) (h.modify i (v.toField * x))
    rw [List.foldl_cons]
    dsimp only
    rw [hterm]
    refine ⟨?_, hsize.trans Array.size_modify⟩
    convert hlists using 2 with k
    rw [total_cons, add_assoc]
    by_cases hk : k = i <;> simp [hk, add_mul]

theorem foldl_columns {m : Nat} {l : List (List (Nat × Exact ℚ))} (hl : ∀ vec ∈ l, Stored m vec)
    {x : Array (Exact ℚ)} {g : Nat → ℚ} (s : Nat)
    (hx : ∀ c < l.length, x.getD (s + c) 0 = .fin (g (s + c)))
    {y : Array (Exact ℚ)} {f : Nat → ℚ} (h : Lists y f) :
    Lists (((l.zipIdx s).flatMap fun (vec, o) => vec.map fun (k, v) => (k, o, v)).foldl
        (fun y (i, j, v) => y.modify i (· + .fin 1 * v * x.getD j 0)) y)
      fun k => f k + ∑ c ∈ Finset.range l.length, total (l.getD c []) k * g (s + c) := by
  induction l generalizing y f s with
  | nil => simpa using h
  | cons vec l ih =>
    have hx₀ : x.getD s 0 = .fin (g s) := hx 0 (by simp)
    obtain ⟨hlists, hsize⟩ := foldl_entries (hl vec (by simp)) (g s) h
    have hrest := ih (fun vec hvec => hl vec (by simp [hvec])) (s + 1)
      (fun c hc => by
        have hnext := hx (c + 1) (by simpa using hc)
        rwa [Nat.add_assoc, Nat.add_comm 1 c]) hlists
    rw [List.zipIdx_cons, List.flatMap_cons, List.foldl_append, List.foldl_map]
    dsimp only
    rw [hx₀]
    convert hrest using 2 with k
    rw [List.length_cons, Finset.sum_range_succ', add_assoc]
    congr 1
    rw [add_comm]
    simp [Nat.add_assoc, Nat.add_comm 1]

/-- **The product with a vector.** -/
theorem mulVec?_lists (h : a.WellFormed) (hfin : ∀ vec ∈ a.vectors, Stored a.numRows vec)
    (horient : a.orientation = .byColumn) {x : Array (Exact ℚ)} {g : Nat → ℚ}
    (hsize : x.size = a.numCols) (hx : Lists x g) :
    ∃ out, a.mulVec? x (Array.replicate a.numRows 0) 1 0 = some out ∧ out.size = a.numRows ∧
      Lists out (a.apply g) := by
  have hbeta : ((0 : Exact ℚ) == 0) = true := by rw [Exact.zero_def, Exact.fin_beq]; simp
  have halpha : ((1 : Exact ℚ) != 0) = true := by
    rw [Exact.zero_def, Exact.one_def, Exact.fin_bne]
    simp
  have hstart : Lists ((Array.replicate a.numRows (0 : Exact ℚ)).map fun _ => (0 : Exact ℚ))
      fun _ => 0 := by
    intro k hk
    rw [getD_map _ _ _ 0, if_pos (by simpa using hk), Exact.zero_def]
  have hlists := foldl_columns (l := a.vectors.toList) (x := x) (g := g)
    (fun vec hvec => hfin vec (by simpa using hvec)) 0
    (fun c hc => by
      rw [zero_add]
      exact hx c (by rw [hsize, ← h.vectors]; simpa using hc)) hstart
  refine ⟨a.entries.foldl (fun y (i, j, v) => y.modify i (· + 1 * v * x.getD j 0))
      ((Array.replicate a.numRows (0 : Exact ℚ)).map fun _ => 0), ?_, ?_, ?_⟩
  · unfold mulVec?
    rw [if_pos ⟨hsize.symm, Array.size_replicate.symm⟩]
    unfold scale
    dsimp only
    rw [if_pos hbeta, if_pos halpha]
  · refine List.foldlRecOn (motive := fun y : Array (Exact ℚ) => y.size = a.numRows) _ _ (by simp)
      fun y hy e _ => ?_
    exact Array.size_modify.trans hy
  · unfold entries
    rw [horient, Exact.one_def]
    convert hlists using 2 with k
    rw [zero_add, Array.length_toList, h.vectors]
    unfold apply value
    refine Finset.sum_congr rfl fun c _ => ?_
    simp

theorem foldlM_entries {m : Nat} {vec : List (Nat × Exact ℚ)} (hvec : Stored m vec)
    {x y : Array (Exact ℚ)} {f g : Nat → ℚ} (hx : Lists x g) (hxsize : x.size = m) (alpha : ℚ)
    {o : Nat} (ho : o < y.size) (hy : Lists y f) :
    ∃ out, vec.foldlM (fun y (k, v) =>
        if o < y.size ∧ k < x.size then some (y.modify o (· + .fin alpha * v * x.getD k 0))
        else none) y = some out ∧ out.size = y.size ∧
      Lists out fun k =>
        f k + if k = o then alpha * ∑ i ∈ Finset.range m, g i * total vec i else 0 := by
  induction vec generalizing y f with
  | nil => exact ⟨y, rfl, rfl, by simpa [total] using hy⟩
  | cons e vec ih =>
    obtain ⟨k₀, v⟩ := e
    obtain ⟨hk₀, hv⟩ := hvec (k₀, v) (by simp)
    dsimp only at hk₀ hv
    have hterm : Exact.fin alpha * v * x.getD k₀ 0 = .fin (alpha * v.toField * g k₀) := by
      rw [hx k₀ (hxsize ▸ hk₀), hv, Exact.fin_mul, Exact.fin_mul, Exact.toField_fin]
    obtain ⟨out, hfold, hsize, hout⟩ := ih (fun e he => hvec e (by simp [he]))
      (by rwa [Array.size_modify]) (hy.modify o (alpha * v.toField * g k₀))
    refine ⟨out, ?_, hsize.trans Array.size_modify, ?_⟩
    · rw [List.foldlM_cons]
      dsimp only
      rw [if_pos ⟨ho, hxsize ▸ hk₀⟩, hterm]
      exact hfold
    · convert hout using 2 with k
      rw [add_assoc]
      congr 1
      by_cases hk : k = o
      · rw [if_pos hk, if_pos hk, if_pos hk, sum_total hvec,
          sum_total fun e he => hvec e (List.mem_cons_of_mem _ he), List.map_cons, List.sum_cons]
        ring
      · rw [if_neg hk, if_neg hk, if_neg hk, add_zero]

theorem foldlM_columns {m : Nat} {l : List (List (Nat × Exact ℚ))} (hl : ∀ vec ∈ l, Stored m vec)
    {x y : Array (Exact ℚ)} {f g : Nat → ℚ} (hx : Lists x g) (hxsize : x.size = m) (alpha : ℚ)
    (s : Nat) (hs : s + l.length ≤ y.size) (hy : Lists y f) :
    ∃ out, (l.zipIdx s).foldlM (fun y (vec, o) => vec.foldlM (fun y (k, v) =>
        if o < y.size ∧ k < x.size then some (y.modify o (· + .fin alpha * v * x.getD k 0))
        else none) y) y = some out ∧ out.size = y.size ∧
      Lists out fun k => f k +
        if s ≤ k then alpha * ∑ i ∈ Finset.range m, g i * total (l.getD (k - s) []) i else 0 := by
  induction l generalizing y f s with
  | nil => exact ⟨y, rfl, rfl, by simpa [total] using hy⟩
  | cons vec l ih =>
    rw [List.length_cons] at hs
    obtain ⟨y₁, hcolumn, hsize₁, hy₁⟩ :=
      foldlM_entries (hl vec (by simp)) hx hxsize alpha (show s < y.size by omega) hy
    obtain ⟨out, hfold, hsize, hout⟩ := ih (fun vec hvec => hl vec (by simp [hvec])) (s + 1)
      (by omega) hy₁
    refine ⟨out, ?_, hsize.trans hsize₁, ?_⟩
    · rw [List.zipIdx_cons, List.foldlM_cons]
      dsimp only
      rw [hcolumn]
      exact hfold
    · convert hout using 2 with k
      rw [add_assoc]
      congr 1
      by_cases hk : k = s
      · subst hk
        simp
      · by_cases hlt : s < k
        · obtain ⟨c, rfl⟩ : ∃ c, k = s + 1 + c := ⟨k - s - 1, by omega⟩
          have hsub : s + 1 + c - s = c + 1 := by omega
          have hsub' : s + 1 + c - (s + 1) = c := by omega
          rw [hsub, hsub', List.getD_cons_succ, if_neg hk, if_pos (by omega), if_pos (by omega),
            zero_add]
        · rw [if_neg hk, if_neg (by omega), if_neg (by omega), zero_add]

/-- **The product of the transpose with a vector**, subtracted from another one. -/
theorem mulVecTranspose?_lists (h : a.WellFormed) (hfin : ∀ vec ∈ a.vectors, Stored a.numRows vec)
    {x y : Array (Exact ℚ)} {f g : Nat → ℚ} (hxsize : x.size = a.numRows) (hx : Lists x g)
    (hysize : y.size = a.numCols) (hy : Lists y f) :
    ∃ out, a.mulVecTranspose? x y (-1) 1 = some out ∧ out.size = a.numCols ∧
      Lists out fun j => f j - a.applyTranspose g j := by
  have hbeta : ((1 : Exact ℚ) == 0) = false := by
    rw [Exact.zero_def, Exact.one_def, Exact.fin_beq]
    simp
  have hbeta' : ((1 : Exact ℚ) != 1) = false := by
    rw [Exact.one_def, Exact.fin_bne]
    simp
  have halpha : ((-1 : Exact ℚ) != 0) = true := by
    rw [Exact.zero_def, Exact.one_def, Exact.fin_neg, Exact.fin_bne]
    simp
  obtain ⟨out, hfold, hsize, hout⟩ := foldlM_columns (l := a.vectors.toList)
    (fun vec hvec => hfin vec (by simpa using hvec)) hx hxsize (-1) 0
    (by rw [zero_add, Array.length_toList, h.vectors, hysize]) hy
  refine ⟨out, ?_, hsize.trans hysize, ?_⟩
  · unfold mulVecTranspose?
    rw [if_pos ⟨hxsize.symm, hysize.symm⟩]
    unfold scale
    dsimp only
    rw [hbeta, hbeta', if_neg Bool.false_ne_true, if_neg Bool.false_ne_true, if_pos halpha,
      Exact.one_def, Exact.fin_neg]
    exact hfold
  · convert hout using 2 with k
    unfold applyTranspose value
    simp [sub_eq_add_neg]

end BranchAndCut.Matrix

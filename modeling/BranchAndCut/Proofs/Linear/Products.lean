import BranchAndCut.Proofs.Linear.Triplets

/-! # Products of stored matrices

The entry of a matrix at a position is the sum of all values that were given for it, however
they are stored. The product with a vector reads the stored entries one by one and is the
product of that matrix, in either orientation. The product of the transpose takes the stored
vectors for columns: for a matrix compressed along columns it is what it should be, and the
two products are adjoint; for one compressed along rows it is not. -/

namespace BranchAndCut.Matrix

open Finset (range)

variable {m n i j k : Nat} {a : Matrix (Exact ℚ)} {f : Nat → Nat → ℚ} {entries : List (Nat × Nat × Exact ℚ)}

/-! ## Entries -/

/-- The sum of the values that are listed for a position. -/
def sumAt (entries : List (Nat × Nat × Exact ℚ)) (i j : Nat) : ℚ :=
  ((entries.filter fun e => e.1 == i && e.2.1 == j).map fun e => e.2.2.toField).sum

theorem sumAt_cons (e : Nat × Nat × Exact ℚ) (entries : List (Nat × Nat × Exact ℚ)) (i j : Nat) :
    sumAt (e :: entries) i j = (if i = e.1 ∧ j = e.2.1 then e.2.2.toField else 0) + sumAt entries i j := by
  unfold sumAt
  rw [List.filter_cons]
  by_cases h : i = e.1 ∧ j = e.2.1
  · obtain ⟨rfl, rfl⟩ := h
    simp
  · have hskip : (e.1 == i && e.2.1 == j) = false := by
      rw [Bool.and_eq_false_iff, beq_eq_false_iff_ne, beq_eq_false_iff_ne]
      exact (not_and_or.mp h).imp Ne.symm Ne.symm
    rw [hskip, if_neg Bool.false_ne_true, if_neg h, zero_add]

theorem sumAt_append (entries entries' : List (Nat × Nat × Exact ℚ)) (i j : Nat) :
    sumAt (entries ++ entries') i j = sumAt entries i j + sumAt entries' i j := by
  unfold sumAt
  rw [List.filter_append, List.map_append, List.sum_append]

theorem sumAt_swapped (entries : List (Nat × Nat × Exact ℚ)) (i j : Nat) :
    sumAt (entries.map fun e => (e.2.1, e.1, e.2.2)) i j = sumAt entries j i := by
  unfold sumAt
  rw [List.filter_map, List.map_map]
  simp [Function.comp_def, Bool.and_comm]

/-- The entries of one vector. -/
theorem sumAt_vector (vec : List (Nat × Exact ℚ)) (o i j : Nat) :
    sumAt (vec.map fun e => (e.1, o, e.2)) i j = if j = o then total vec i else 0 := by
  induction vec with
  | nil => simp [sumAt, total]
  | cons e vec ih =>
    rw [List.map_cons, sumAt_cons, ih, total_cons]
    by_cases hj : j = o
    · simp [hj]
    · simp [hj]

/-- The entries of vectors, the outer index in second place. -/
theorem sumAt_vectors (l : List (List (Nat × Exact ℚ))) (s i j : Nat) :
    sumAt ((l.zipIdx s).flatMap fun (vec, o) => vec.map fun (k, v) => (k, o, v)) i j =
      if s ≤ j then total (l.getD (j - s) []) i else 0 := by
  induction l generalizing s with
  | nil => simp [sumAt, total]
  | cons vec l ih =>
    rw [List.zipIdx_cons, List.flatMap_cons, sumAt_append, ih]
    dsimp only
    rw [sumAt_vector]
    by_cases hj : j = s
    · subst hj
      rw [if_pos rfl, if_neg (by omega), if_pos (Nat.le_refl _), Nat.sub_self, List.getD_cons_zero, add_zero]
    · rw [if_neg hj, zero_add]
      by_cases hlt : s + 1 ≤ j
      · rw [if_pos hlt, if_pos (by omega), show j - s = j - (s + 1) + 1 by omega, List.getD_cons_succ]
      · rw [if_neg hlt, if_neg (by omega)]

/-- The entries, the outer index in second place whatever the orientation. -/
def byVector (a : Matrix (Exact ℚ)) : List (Nat × Nat × Exact ℚ) :=
  a.vectors.toList.zipIdx.flatMap fun (vec, o) => vec.map fun (k, v) => (k, o, v)

theorem entries_byColumn (h : a.orientation = .byColumn) : a.entries = a.byVector := by
  unfold Matrix.entries byVector
  rw [h]

theorem entries_byRow (h : a.orientation = .byRow) : a.entries = a.byVector.map fun e => (e.2.1, e.1, e.2.2) := by
  unfold Matrix.entries byVector
  rw [h, List.map_flatMap]
  simp [Function.comp_def]

theorem sumAt_byVector (a : Matrix (Exact ℚ)) (i j : Nat) : sumAt a.byVector i j = a.value i j := by
  unfold byVector value
  rw [sumAt_vectors, if_pos (Nat.zero_le j), Nat.sub_zero, List.getD_eq_getElem?_getD, Array.getElem?_toList,
    Array.getD_eq_getD_getElem?]

theorem mem_byVector {e : Nat × Nat × Exact ℚ} :
    e ∈ a.byVector ↔ ∃ h : e.2.1 < a.vectors.size, (e.1, e.2.2) ∈ a.vectors[e.2.1] := by
  unfold byVector
  constructor
  · intro he
    obtain ⟨⟨vec, o⟩, hvec, he⟩ := List.mem_flatMap.mp he
    obtain ⟨⟨k, v⟩, hc, rfl⟩ := List.mem_map.mp he
    obtain ⟨ho, hget⟩ := List.getElem?_eq_some_iff.mp (List.mem_zipIdx_iff_getElem?.mp hvec)
    exact ⟨by simpa using ho, (show a.vectors[o] = vec from hget) ▸ hc⟩
  · rintro ⟨ho, he⟩
    refine List.mem_flatMap.mpr ⟨(a.vectors[e.2.1], e.2.1), ?_, List.mem_map.mpr ⟨_, he, rfl⟩⟩
    rw [List.mem_zipIdx_iff_getElem?]
    simp [ho]

/-! ## What a matrix stands for -/

/-- Finite values at positions inside a shape. -/
def Placed (m n : Nat) (entries : List (Nat × Nat × Exact ℚ)) : Prop :=
  ∀ e ∈ entries, e.1 < m ∧ e.2.1 < n ∧ e.2.2 = .fin e.2.2.toField

/-- The stored entries lie inside the shape and sum up to the values of a function. -/
structure StandsFor (a : Matrix (Exact ℚ)) (f : Nat → Nat → ℚ) : Prop where
  placed : Placed a.numRows a.numCols a.entries
  sums : ∀ i j, sumAt a.entries i j = f i j
  columns : a.orientation = .byColumn → a.vectors.size = a.numCols
  rows : a.orientation = .byRow → a.vectors.size = a.numRows

section Builders

variable [Rooted ℚ]

/-- The values are the sums of those that were given. -/
theorem sumOf_fin (l : List ℚ) : sumOf (l.map Exact.fin) = if l = [] then none else some (.fin l.sum) := by
  cases l with
  | nil => rfl
  | cons q l =>
    have hfold : ∀ x : ℚ, (l.map Exact.fin).foldl (· + ·) (.fin x) = .fin (x + l.sum) := by
      induction l with
      | nil => simp
      | cons y l ih =>
        intro x
        rw [List.map_cons, List.foldl_cons, Exact.fin_add, ih, List.sum_cons, add_assoc]
    rw [if_neg (List.cons_ne_nil _ _), List.sum_cons]
    exact congrArg some (hfold q)

theorem standsFor_of_stored (h : a.WellFormed) (horient : a.orientation = .byColumn)
    (hasc : ∀ vec ∈ a.vectors, Ascending vec)
    (hf : ∀ i j, ∃ l : List ℚ, a.stored i j = sumOf (l.map Exact.fin) ∧ l.sum = f i j) : a.StandsFor f where
  placed e he := by
    rw [entries_byColumn horient] at he
    obtain ⟨ho, he⟩ := mem_byVector.mp he
    obtain ⟨l, hl, -⟩ := hf e.1 e.2.1
    refine ⟨h.inner _ (Array.getElem_mem ho) _ he, h.vectors ▸ ho, ?_⟩
    rw [stored_of_mem hasc ho he, sumOf_fin] at hl
    split at hl
    · cases hl
    · exact (Option.some.inj hl) ▸ rfl
  sums i j := by
    obtain ⟨l, hl, hsum⟩ := hf i j
    rw [entries_byColumn horient, sumAt_byVector, value_of_stored hasc, hl, sumOf_fin, ← hsum]
    split
    · next hnil => rw [hnil]; rfl
    · rfl
  columns _ := h.vectors
  rows hrow := by rw [horient] at hrow; cases hrow

/-- **Triplets stand for the sums of the values given for each position.** -/
theorem standsFor_ofTriplets? {given : List (Nat × Nat × ℚ)}
    (h : ofTriplets? m n (given.map fun t => (t.1, t.2.1, .fin t.2.2)) = some a) :
    a.StandsFor fun i j => ((given.filter fun t => t.1 = i ∧ t.2.1 = j).map fun t => t.2.2).sum := by
  unfold ofTriplets? at h
  split at h
  · next hplaced =>
    obtain rfl := Option.some.inj h
    have hin : ∀ t ∈ given, t.1 < m ∧ t.2.1 < n := fun t ht => by
      have hall := List.all_eq_true.mp hplaced _ (List.mem_map_of_mem ht)
      simpa using hall
    refine standsFor_of_stored (ofTriplets_wellFormed fun t ht => ?_) rfl (fun vec => ofTriplets_ascending)
      fun i j => ⟨(given.filter fun t => t.1 = i ∧ t.2.1 = j).map fun t => t.2.2, ?_, rfl⟩
    · obtain ⟨t', ht', rfl⟩ := List.mem_map.mp ht
      exact (hin t' ht').1
    · rw [stored_ofTriplets, List.filter_map, List.map_map, List.map_map]
      by_cases hj : j < n
      · rw [if_pos hj]
        simp [Function.comp_def, Bool.decide_and, beq_eq_decide]
      · have hnone : given.filter (fun t => t.1 = i ∧ t.2.1 = j) = [] := List.filter_eq_nil_iff.mpr fun t ht hindex =>
          hj ((of_decide_eq_true hindex).2 ▸ (hin t ht).2)
        rw [if_neg hj, hnone]
        rfl
  · cases h

/-- **Rows stand for the sums of the values given for each column**, zeros left out or not. -/
theorem standsFor_ofRows {rows : List (List (Nat × ℚ))} (h : ∀ row ∈ rows, ∀ e ∈ row, e.2 ≠ 0 → e.1 < n) :
    (ofRows n (rows.map fun row => row.map fun e => (e.1, (.fin e.2 : Exact ℚ)))).StandsFor fun i j =>
      (((rows.getD i []).filter fun e => e.1 = j).map Prod.snd).sum := by
  have hzeros : ∀ (row : List (Nat × ℚ)) (j : Nat), ((row.filter fun e => e.1 = j ∧ e.2 ≠ 0).map Prod.snd).sum =
      ((row.filter fun e => e.1 = j).map Prod.snd).sum := fun row j => by
    induction row with
    | nil => rfl
    | cons e row ih =>
      rw [List.filter_cons, List.filter_cons]
      by_cases hzero : e.2 = 0 <;> by_cases hj : e.1 = j <;> simp [hzero, hj] <;> simpa using ih
  refine standsFor_of_stored (ofRows_wellFormed _ _) rfl (fun vec => ofTriplets_ascending) fun i j =>
    ⟨((rows.getD i []).filter fun e => e.1 = j ∧ e.2 ≠ 0).map Prod.snd, ?_, hzeros _ j⟩
  rw [stored_ofRows, List.getElem?_map, List.getD_eq_getElem?_getD]
  cases hrow : rows[i]? with
  | none => simp [sumOf]
  | some row =>
    have hmem := List.mem_of_getElem? hrow
    by_cases hj : j < n
    · rw [if_pos hj, Option.map_some, Option.bind_some, Option.getD_some, storedIn, List.filter_map, List.map_map,
        List.map_map]
      simp [Function.comp_def, Bool.decide_and, beq_eq_decide, Exact.zero_def]
    · have hnone : row.filter (fun e => e.1 = j ∧ e.2 ≠ 0) = [] := List.filter_eq_nil_iff.mpr fun e he hindex => by
        obtain ⟨rfl, hne⟩ := of_decide_eq_true hindex
        exact hj (h row hmem e he hne)
      rw [if_neg hj, Option.getD_some, hnone]
      rfl

end Builders

/-! ## Storage along rows -/

theorem gathered_rows (m : Nat) (entries : List (Nat × Nat × Exact ℚ)) :
    (entries.foldl (fun rows (i, j, v) => rows.modify i (· ++ [(j, v)])) (Array.replicate m [])).size = m ∧
      ∀ i < m, (entries.foldl (fun rows (i, j, v) => rows.modify i (· ++ [(j, v)])) (Array.replicate m [])).getD i [] =
        (entries.filter fun e => e.1 == i).map Prod.snd := by
  induction entries using List.reverseRecOn with
  | nil => exact ⟨Array.size_replicate, fun i _ => getD_replicate m i []⟩
  | append_singleton entries e ih =>
    obtain ⟨hsize, hrows⟩ := ih
    rw [List.foldl_append, List.foldl_cons, List.foldl_nil]
    refine ⟨Array.size_modify.trans hsize, fun i hi => ?_⟩
    rw [getD_modify, hsize, hrows i hi, List.filter_append, List.map_append]
    by_cases he : e.1 = i
    · have hlast : [e].filter (fun x => x.1 == i) = [e] := by simp [he]
      rw [if_pos ⟨he.symm, he ▸ hi⟩, hlast, List.map_singleton]
    · have hlast : [e].filter (fun x => x.1 == i) = [] := by simp [he]
      rw [if_neg fun h => he h.1.symm, hlast, List.map_nil, List.append_nil]

theorem total_filter (entries : List (Nat × Nat × Exact ℚ)) (i j : Nat) :
    total ((entries.filter fun e => e.1 == i).map Prod.snd) j = sumAt entries i j := by
  unfold total sumAt
  rw [List.filter_map, List.map_map, List.filter_filter]
  simp only [Function.comp_def, Bool.and_comm]

/-- **A matrix stands for the same function when it is stored along rows.** -/
theorem StandsFor.toRows (h : a.StandsFor f) : a.toRows.StandsFor f := by
  unfold Matrix.toRows
  cases horient : a.orientation with
  | byRow => exact h
  | byColumn =>
    obtain ⟨hsize, hrows⟩ := gathered_rows a.numRows a.entries
    dsimp only
    generalize a.entries.foldl _ _ = rows at hsize hrows
    refine ⟨fun e he => ?_, fun i j => ?_, nofun, fun _ => hsize⟩
    · rw [entries_byRow rfl] at he
      obtain ⟨c, hc, rfl⟩ := List.mem_map.mp he
      obtain ⟨hlt, hc⟩ := mem_byVector.mp hc
      have hrow := hrows c.2.1 (hsize ▸ hlt)
      rw [Array.getD_eq_getD_getElem?, Array.getElem?_eq_getElem hlt, Option.getD_some] at hrow
      rw [hrow] at hc
      obtain ⟨d, hd, hpair⟩ := List.mem_map.mp hc
      obtain ⟨hd, hindex⟩ := List.mem_filter.mp hd
      have heq : d = (c.2.1, c.1, c.2.2) := Prod.ext (beq_iff_eq.mp hindex) hpair
      exact heq ▸ h.placed d hd
    · rw [entries_byRow rfl, sumAt_swapped, sumAt_byVector, ← h.sums]
      unfold value
      dsimp only
      by_cases hi : i < a.numRows
      · rw [hrows i hi, total_filter]
      · have hout : a.entries.filter (fun e => e.1 == i) = [] := List.filter_eq_nil_iff.mpr fun e he hindex =>
          hi (beq_iff_eq.mp hindex ▸ (h.placed e he).1)
        rw [getD_of_size_le _ _ (hsize.le.trans (not_lt.mp hi)), ← total_filter, hout]
        rfl

/-! ## Products -/

section Products

variable [Rooted ℚ]

/-- Finite numbers. -/
def lift (x : Array ℚ) : Array (Exact ℚ) := x.map .fin

/-- `alpha * F x + beta * y` for the matrix of a function. -/
def combination (alpha beta : ℚ) (f : Nat → Nat → ℚ) (x y : Array ℚ) : Array ℚ :=
  Array.ofFn fun i : Fin y.size => alpha * ∑ j ∈ range x.size, f i j * x.getD j 0 + beta * y.getD i 0

omit [Rooted ℚ] in
theorem size_lift (x : Array ℚ) : (lift x).size = x.size := Array.size_map ..

theorem lists_lift (x : Array ℚ) : Lists (lift x) fun k => x.getD k 0 := by
  intro k hk
  rw [size_lift] at hk
  unfold lift
  rw [getD_map _ _ _ 0, if_pos hk]

/-- Arrays of finite numbers are equal if their values are. -/
theorem Lists.eq_lift {y : Array (Exact ℚ)} {g : Nat → ℚ} (h : Lists y g) {x : Array ℚ} (hsize : y.size = x.size)
    (hvalues : ∀ k < x.size, x.getD k 0 = g k) : y = lift x := by
  refine Array.ext (by rw [hsize, size_lift]) fun k hk hk' => ?_
  have hy := h k hk
  have hx := lists_lift x k hk'
  rw [Array.getD_eq_getD_getElem?, Array.getElem?_eq_getElem hk, Option.getD_some] at hy
  rw [Array.getD_eq_getD_getElem?, Array.getElem?_eq_getElem hk', Option.getD_some] at hx
  rw [hy, hx, ← hvalues k (hsize ▸ hk)]

/-- The factor of the second vector, its special values zero and one included. -/
theorem scale_lift (beta : ℚ) (y : Array ℚ) :
    Lists (scale (.fin beta) (lift y)) (fun k => beta * y.getD k 0) ∧ (scale (.fin beta) (lift y)).size = y.size := by
  have hmap : ∀ g : Exact ℚ → Exact ℚ, ((lift y).map g).size = y.size := fun g =>
    (Array.size_map ..).trans (size_lift y)
  unfold scale
  rw [Exact.zero_def, Exact.one_def, Exact.fin_beq, Exact.fin_bne]
  split_ifs with hzero hone
  · refine ⟨fun k hk => ?_, hmap _⟩
    rw [hmap] at hk
    rw [getD_map _ _ _ 0, if_pos (size_lift y ▸ hk), of_decide_eq_true hzero]
    exact congrArg Exact.fin (zero_mul _).symm
  · refine ⟨fun k hk => ?_, hmap _⟩
    rw [hmap] at hk
    rw [getD_map _ _ _ 0, if_pos (size_lift y ▸ hk), lists_lift y k (size_lift y ▸ hk), Exact.fin_mul, mul_comm]
  · have hbeta : beta = 1 := by simpa using hone
    refine ⟨fun k hk => ?_, size_lift y⟩
    rw [lists_lift y k hk, hbeta]
    exact congrArg Exact.fin (one_mul _).symm

/-- The stored entries are added one by one, in any order. -/
theorem foldl_placed (h : Placed m n entries) {x : Array (Exact ℚ)} {g : Nat → ℚ} (hx : Lists x g)
    (hn : x.size = n) (alpha : ℚ) {y : Array (Exact ℚ)} {b : Nat → ℚ} (hy : Lists y b) :
    Lists (entries.foldl (fun y (i, j, v) => y.modify i (· + .fin alpha * v * x.getD j 0)) y)
        (fun i => alpha * ∑ j ∈ range n, sumAt entries i j * g j + b i) ∧
      (entries.foldl (fun y (i, j, v) => y.modify i (· + .fin alpha * v * x.getD j 0)) y).size = y.size := by
  induction entries generalizing y b with
  | nil => exact ⟨by simpa [sumAt] using hy, rfl⟩
  | cons e entries ih =>
    obtain ⟨i₀, j₀, v⟩ := e
    obtain ⟨⟨-, hj, hv⟩, hrest⟩ := List.forall_mem_cons.mp h
    dsimp only at hj hv
    have hterm : .fin alpha * v * x.getD j₀ 0 = .fin (alpha * v.toField * g j₀) := by
      rw [hx j₀ (hn ▸ hj), hv, Exact.fin_mul, Exact.fin_mul, Exact.toField_fin]
    obtain ⟨hlists, hsize⟩ := ih hrest (hy.modify i₀ (alpha * v.toField * g j₀))
    rw [List.foldl_cons]
    dsimp only
    rw [hterm]
    refine ⟨?_, hsize.trans Array.size_modify⟩
    convert hlists using 2 with i
    have hcell : ∑ j ∈ range n, (if i = i₀ ∧ j = j₀ then v.toField else 0) * g j =
        if i = i₀ then v.toField * g j₀ else 0 := by
      by_cases hi : i = i₀
      · simp [hi, hj]
      · simp [hi]
    simp only [sumAt_cons, add_mul, Finset.sum_add_distrib, hcell]
    split_ifs <;> ring

omit [Rooted ℚ] in
theorem size_combination (alpha beta : ℚ) (f : Nat → Nat → ℚ) (x y : Array ℚ) :
    (combination alpha beta f x y).size = y.size := Array.size_ofFn

omit [Rooted ℚ] in
theorem combination_getD {y : Array ℚ} (hk : k < y.size) (alpha beta : ℚ) (f : Nat → Nat → ℚ) (x : Array ℚ) :
    (combination alpha beta f x y).getD k 0 =
      alpha * ∑ j ∈ range x.size, f k j * x.getD j 0 + beta * y.getD k 0 := by
  unfold combination
  rw [Array.getD_eq_getD_getElem?, Array.getElem?_ofFn, dif_pos hk, Option.getD_some]

/-- A factor of zero for the matrix leaves it out. -/
theorem scale_eq_combination (beta : ℚ) (f : Nat → Nat → ℚ) (x y : Array ℚ) :
    scale (.fin beta) (lift y) = lift (combination 0 beta f x y) := by
  obtain ⟨hscaled, hsize⟩ := scale_lift beta y
  refine hscaled.eq_lift (hsize.trans (size_combination ..).symm) fun k hk => ?_
  rw [combination_getD (size_combination .. ▸ hk), zero_mul, zero_add]

/-- **The product with a vector**, in either orientation. -/
theorem StandsFor.mulVec?_eq (h : a.StandsFor f) {x y : Array ℚ} (hx : x.size = a.numCols) (hy : y.size = a.numRows)
    (alpha beta : ℚ) :
    a.mulVec? (lift x) (lift y) (.fin alpha) (.fin beta) = some (lift (combination alpha beta f x y)) := by
  obtain ⟨hscaled, hsize⟩ := scale_lift beta y
  obtain ⟨hlists, hsize'⟩ := foldl_placed h.placed (lists_lift x) ((size_lift x).trans hx) alpha hscaled
  unfold mulVec?
  rw [if_pos ⟨hx.symm.trans (size_lift x).symm, hy.symm.trans (size_lift y).symm⟩]
  dsimp only
  rw [Exact.zero_def, Exact.fin_bne]
  congr 1
  split_ifs with halpha
  · refine hlists.eq_lift (hsize'.trans (hsize.trans (size_combination ..).symm)) fun k hk => ?_
    rw [combination_getD (size_combination .. ▸ hk), hx]
    simp only [h.sums]
  · have hzero : alpha = 0 := by simpa using halpha
    rw [hzero]
    exact scale_eq_combination beta f x y

/-- **The product of the transpose with a vector**, for a matrix compressed along columns. -/
theorem StandsFor.mulVecTranspose?_eq (h : a.StandsFor f) (horient : a.orientation = .byColumn) {x y : Array ℚ}
    (hx : x.size = a.numRows) (hy : y.size = a.numCols) (alpha beta : ℚ) :
    a.mulVecTranspose? (lift x) (lift y) (.fin alpha) (.fin beta) =
      some (lift (combination alpha beta (fun j i => f i j) x y)) := by
  obtain ⟨hscaled, hsize⟩ := scale_lift beta y
  have hvalue : ∀ i j, a.value i j = f i j := fun i j => by
    rw [← h.sums, entries_byColumn horient, sumAt_byVector]
  have hstored : ∀ vec ∈ a.vectors.toList, Stored a.numRows vec := fun vec hvec e he => by
    obtain ⟨o, ho, rfl⟩ := Array.mem_iff_getElem.mp (Array.mem_toList_iff.mp hvec)
    have hmem : (e.1, o, e.2) ∈ a.entries := entries_byColumn horient ▸ mem_byVector.mpr ⟨ho, he⟩
    exact ⟨(h.placed _ hmem).1, (h.placed _ hmem).2.2⟩
  obtain ⟨out, hfold, hsize', hlists⟩ := foldlM_columns hstored (lists_lift x) ((size_lift x).trans hx) alpha 0
    (by rw [zero_add, Array.length_toList, h.columns horient, hsize, hy]) hscaled
  unfold mulVecTranspose?
  rw [if_pos ⟨hx.symm.trans (size_lift x).symm, hy.symm.trans (size_lift y).symm⟩]
  dsimp only
  rw [Exact.zero_def, Exact.fin_bne]
  split_ifs with halpha
  · refine hfold.trans (congrArg some (hlists.eq_lift (hsize'.trans (hsize.trans (size_combination ..).symm))
      fun k hk => ?_))
    have hcolumn : ∀ i, total (a.vectors.toList.getD (k - 0) []) i = f i k := fun i => by
      rw [← hvalue, Nat.sub_zero, List.getD_eq_getElem?_getD, Array.getElem?_toList, value,
        Array.getD_eq_getD_getElem?]
    rw [combination_getD (size_combination .. ▸ hk), hx, if_pos (Nat.zero_le k), add_comm]
    simp only [hcolumn, mul_comm]
  · have hzero : alpha = 0 := by simpa using halpha
    rw [hzero]
    exact congrArg some (scale_eq_combination beta _ x y)

/-- What stored rows are combined to, if there are as many of them as columns: the product
with the matrix itself. -/
theorem StandsFor.mulVecTranspose?_byRow (h : a.StandsFor f) (horient : a.orientation = .byRow)
    (hsquare : a.numRows = a.numCols) {x y : Array ℚ} (hx : x.size = a.numRows) (hy : y.size = a.numCols)
    (alpha beta : ℚ) :
    a.mulVecTranspose? (lift x) (lift y) (.fin alpha) (.fin beta) = some (lift (combination alpha beta f x y)) := by
  -- the same vectors, read as the columns of the transpose
  let b : Matrix (Exact ℚ) := ⟨a.numCols, a.numRows, .byColumn, a.vectors⟩
  have hentries : a.entries = b.entries.map fun e => (e.2.1, e.1, e.2.2) := entries_byRow horient
  have hb : b.StandsFor fun j i => f i j := by
    refine ⟨fun e he => ?_, fun j i => ?_, fun _ => h.rows horient, nofun⟩
    · obtain ⟨hcol, hrow, hvalue⟩ := h.placed _ (hentries ▸ List.mem_map_of_mem he)
      exact ⟨hrow, hcol, hvalue⟩
    · rw [← h.sums, hentries, sumAt_swapped]
  have hproduct := hb.mulVecTranspose?_eq rfl (hx.trans hsquare) (hy.trans hsquare.symm) alpha beta
  unfold mulVecTranspose? at hproduct ⊢
  rwa [show b.numRows = a.numRows from hsquare.symm, show b.numCols = a.numCols from hsquare] at hproduct

omit [Rooted ℚ] in
/-- The product of two vectors. -/
def dot (x y : Array ℚ) : ℚ := ∑ k ∈ range x.size, x.getD k 0 * y.getD k 0

omit [Rooted ℚ] in
/-- A matrix and its transpose are adjoint. -/
theorem dot_combination (f : Nat → Nat → ℚ) {x y x₀ y₀ : Array ℚ} (hx : x₀.size = x.size) (hy : y₀.size = y.size) :
    dot y (combination 1 0 f x y₀) = dot (combination 1 0 (fun j i => f i j) y x₀) x := by
  unfold dot
  rw [size_combination, hx]
  calc ∑ i ∈ range y.size, y.getD i 0 * (combination 1 0 f x y₀).getD i 0
      = ∑ i ∈ range y.size, ∑ j ∈ range x.size, y.getD i 0 * (f i j * x.getD j 0) := by
        refine Finset.sum_congr rfl fun i hi => ?_
        rw [combination_getD (hy ▸ Finset.mem_range.mp hi), one_mul, zero_mul, add_zero, Finset.mul_sum]
    _ = ∑ j ∈ range x.size, ∑ i ∈ range y.size, y.getD i 0 * (f i j * x.getD j 0) := Finset.sum_comm
    _ = ∑ j ∈ range x.size, (combination 1 0 (fun j i => f i j) y x₀).getD j 0 * x.getD j 0 := by
        refine Finset.sum_congr rfl fun j hj => ?_
        rw [combination_getD (hx ▸ Finset.mem_range.mp hj), one_mul, zero_mul, add_zero, Finset.sum_mul]
        exact Finset.sum_congr rfl fun i _ => by ring

/-! ## Matrices as they are built -/

/-- Matrices from finite triplets or rows, as they are or stored along rows, with the sums of
all values given for each position. -/
inductive Built : Matrix (Exact ℚ) → (Nat → Nat → ℚ) → Prop
  | triplets (m n : Nat) (given : List (Nat × Nat × ℚ)) {a : Matrix (Exact ℚ)}
      (h : ofTriplets? m n (given.map fun t => (t.1, t.2.1, .fin t.2.2)) = some a) :
      Built a fun i j => ((given.filter fun t => t.1 = i ∧ t.2.1 = j).map fun t => t.2.2).sum
  | rows (n : Nat) (rows : List (List (Nat × ℚ))) (h : ∀ row ∈ rows, ∀ e ∈ row, e.2 ≠ 0 → e.1 < n) :
      Built (ofRows n (rows.map fun row => row.map fun e => (e.1, .fin e.2))) fun i j =>
        (((rows.getD i []).filter fun e => e.1 = j).map Prod.snd).sum
  | toRows {a : Matrix (Exact ℚ)} {f : Nat → Nat → ℚ} (h : Built a f) : Built a.toRows f

theorem Built.standsFor (h : Built a f) : a.StandsFor f := by
  induction h with
  | triplets m n given h => exact standsFor_ofTriplets? h
  | rows n rows h => exact standsFor_ofRows h
  | toRows _ ih => exact ih.toRows

/-- **Products of a matrix are those of the sums that it was built from**, with all factors.
The transpose has its product as well if the matrix is compressed along columns, and the two
are adjoint. -/
theorem Built.products (h : Built a f) {x y : Array ℚ} (hx : x.size = a.numCols) (hy : y.size = a.numRows)
    (alpha beta : ℚ) :
    a.mulVec? (lift x) (lift y) (.fin alpha) (.fin beta) = some (lift (combination alpha beta f x y)) ∧
      (a.orientation = .byColumn →
        a.mulVecTranspose? (lift y) (lift x) (.fin alpha) (.fin beta) =
            some (lift (combination alpha beta (fun j i => f i j) y x)) ∧
          ∃ u w, a.mulVec? (lift x) (lift y) (.fin 1) (.fin 0) = some (lift u) ∧
            a.mulVecTranspose? (lift y) (lift x) (.fin 1) (.fin 0) = some (lift w) ∧ dot y u = dot w x) :=
  ⟨h.standsFor.mulVec?_eq hx hy alpha beta, fun horient =>
    ⟨h.standsFor.mulVecTranspose?_eq horient hy hx alpha beta, _, _, h.standsFor.mulVec?_eq hx hy 1 0,
      h.standsFor.mulVecTranspose?_eq horient hy hx 1 0, dot_combination f rfl rfl⟩⟩

end Products

/-- A matrix with one position given twice. -/
def twice : Matrix (Exact ℚ) := ofTriplets 2 2 [(0, 1, .fin 1), (1, 0, .fin 3), (0, 1, .fin 2)]

theorem products_twice : twice.mulVec? (lift #[1, 2]) (lift #[3, 4]) (.fin 2) (.fin 1) = some (lift #[15, 10]) ∧
    twice.mulVecTranspose? (lift #[3, 4]) (lift #[1, 2]) (.fin 2) (.fin 1) = some (lift #[25, 20]) ∧
      ∃ u w, twice.mulVec? (lift #[1, 2]) (lift #[3, 4]) (.fin 1) (.fin 0) = some (lift u) ∧
        twice.mulVecTranspose? (lift #[3, 4]) (lift #[1, 2]) (.fin 1) (.fin 0) = some (lift w) ∧
        dot #[3, 4] u = dot w #[1, 2] := by
  have hbuilt : Built twice _ := .triplets 2 2 [(0, 1, 1), (1, 0, 3), (0, 1, 2)] rfl
  obtain ⟨hproduct, htranspose⟩ := hbuilt.products (x := #[1, 2]) (y := #[3, 4]) rfl rfl 2 1
  obtain ⟨htransposed, hadjoint⟩ := htranspose rfl
  refine ⟨hproduct.trans ?_, htransposed.trans ?_, hadjoint⟩
  · decide +kernel
  · decide +kernel

/-- A matrix stored along rows: the product of its transpose is another one. -/
theorem transpose_product_by_rows : ¬ ∀ (a : Matrix (Exact ℚ)) (f : Nat → Nat → ℚ), Built a f →
    ∀ x y : Array ℚ, x.size = a.numRows → y.size = a.numCols → ∀ alpha beta : ℚ,
      a.mulVecTranspose? (lift x) (lift y) (.fin alpha) (.fin beta) =
        some (lift (combination alpha beta (fun j i => f i j) x y)) := by
  intro h
  have hbuilt : Built (ofTriplets 2 2 [(0, 1, .fin 1)]).toRows _ := .toRows (.triplets 2 2 [(0, 1, 1)] rfl)
  have hproduct := h _ _ hbuilt #[1, 0] #[0, 0] rfl rfl 1 0
  revert hproduct
  decide +kernel

end BranchAndCut.Matrix

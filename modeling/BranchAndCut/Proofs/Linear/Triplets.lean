import BranchAndCut.Proofs.Linear.Elimination
import BranchAndCut.Proofs.Linear.Matrix

/-! # Matrices from triplets

A matrix that is built from triplets stores, at each position, the sum of the values
given for it in their order, and nothing where none is given. A matrix that is built from
rows stores the entries of the rows that are not zero. -/

namespace BranchAndCut.Matrix

variable {K : Type} [Scalar K] {vec : List (Nat × K)} {m n i j k : Nat} {v : K}

omit [Scalar K] in
/-- The value stored at a position. -/
def stored (a : Matrix K) (i j : Nat) : Option K := (a.vectors.getD j []).lookup i

/-- A compressed vector stores one value for an index, and the indices ascend. -/
def Ascending (vec : List (Nat × K)) : Prop := (vec.map Prod.fst).Pairwise (· < ·)

/-- The sum of values in their order, if there are any. -/
def sumOf : List K → Option K
  | [] => none
  | v :: vs => some (vs.foldl (· + ·) v)

theorem sumOf_concat (vs : List K) (v : K) :
    sumOf (vs ++ [v]) = some (match sumOf vs with
      | some w => w + v
      | none => v) := by
  cases vs with
  | nil => rfl
  | cons w vs => exact congrArg some List.foldl_append

/-! ## One vector -/

theorem mem_addEntry {e : Nat × K} (he : e ∈ addEntry i v vec) : e.1 = i ∨ ∃ e' ∈ vec, e'.1 = e.1 := by
  induction vec with
  | nil => exact .inl (congrArg Prod.fst (List.mem_singleton.mp he))
  | cons c vec ih =>
    unfold addEntry at he
    split_ifs at he with hlt heq
    · exact (List.mem_cons.mp he).imp (congrArg Prod.fst) fun he => ⟨e, he, rfl⟩
    · rcases List.mem_cons.mp he with rfl | he
      · exact .inl heq.symm
      · exact .inr ⟨e, List.mem_cons_of_mem _ he, rfl⟩
    · rcases List.mem_cons.mp he with rfl | he
      · exact .inr ⟨_, List.mem_cons_self, rfl⟩
      · exact (ih he).imp_right fun ⟨e', he', hindex⟩ => ⟨e', List.mem_cons_of_mem _ he', hindex⟩

theorem Ascending.addEntry (h : Ascending vec) (i : Nat) (v : K) : Ascending (addEntry i v vec) := by
  induction vec with
  | nil => exact List.pairwise_singleton _ _
  | cons c vec ih =>
    obtain ⟨hc, hvec⟩ := List.pairwise_cons.mp h
    unfold Matrix.addEntry
    split_ifs with hlt heq
    · refine List.pairwise_cons.mpr ⟨fun k hk => ?_, h⟩
      rcases List.mem_cons.mp hk with rfl | hk
      · exact hlt
      · exact hlt.trans (hc k hk)
    · exact h
    · refine List.pairwise_cons.mpr ⟨fun k hk => ?_, ih hvec⟩
      obtain ⟨e, he, rfl⟩ := List.mem_map.mp hk
      rcases mem_addEntry he with hi | ⟨e', he', hindex⟩
      · omega
      · exact hindex ▸ hc e'.1 (List.mem_map.mpr ⟨e', he', rfl⟩)

omit [Scalar K] in
theorem lookup_cons_ite (e : Nat × K) (vec : List (Nat × K)) (k : Nat) :
    (e :: vec).lookup k = if k = e.1 then some e.2 else vec.lookup k := by
  rw [List.lookup_cons]
  by_cases hk : k = e.1
  · simp [hk]
  · rw [if_neg hk, beq_false_of_ne hk]

/-- Among distinct keys an entry is found by its key. -/
theorem lookup_of_mem {α β : Type} [DecidableEq α] {entries : List (α × β)} (h : (entries.map Prod.fst).Nodup)
    {e : α × β} (he : e ∈ entries) : entries.lookup e.1 = some e.2 := by
  obtain ⟨done, rest, rfl⟩ := List.append_of_mem he
  rw [List.map_append, List.map_cons, List.nodup_append] at h
  refine List.lookup_eq_some_iff.mpr ⟨done, rest, rfl, fun x hx => bne_iff_ne.mpr fun heq => ?_⟩
  exact h.2.2 _ (List.mem_map_of_mem hx) _ List.mem_cons_self heq.symm

theorem mem_of_lookup {α β : Type} [DecidableEq α] {entries : List (α × β)} {k : α} {b : β}
    (h : entries.lookup k = some b) : (k, b) ∈ entries := by
  obtain ⟨done, rest, rfl, -⟩ := List.lookup_eq_some_iff.mp h
  exact List.mem_append_right done List.mem_cons_self

omit [Scalar K] in
theorem lookup_of_lt (h : ∀ k ∈ vec.map Prod.fst, i < k) : vec.lookup i = none := by
  induction vec with
  | nil => rfl
  | cons e vec ih =>
    obtain ⟨he, hvec⟩ := List.forall_mem_cons.mp h
    rw [lookup_cons_ite, if_neg he.ne, ih hvec]

theorem Ascending.lookup_addEntry (h : Ascending vec) (i k : Nat) (v : K) :
    (Matrix.addEntry i v vec).lookup k = if k = i then some (match vec.lookup i with
      | some w => w + v
      | none => v) else vec.lookup k := by
  induction vec with
  | nil => exact lookup_cons_ite (i, v) [] k
  | cons c vec ih =>
    obtain ⟨hc, hvec⟩ := List.pairwise_cons.mp h
    unfold Matrix.addEntry
    by_cases hlt : i < c.1
    · have hnone : (c :: vec).lookup i = none :=
        lookup_of_lt (List.forall_mem_cons.mpr ⟨hlt, fun k hk => hlt.trans (hc k hk)⟩)
      rw [if_pos hlt, hnone, lookup_cons_ite]
    by_cases heq : i = c.1
    · rw [if_neg hlt, if_pos heq, lookup_cons_ite, lookup_cons_ite, lookup_cons_ite, if_pos heq, ← heq]
      by_cases hk : k = i
      · rw [if_pos hk, if_pos hk]
      · rw [if_neg hk, if_neg hk, if_neg hk]
    · rw [if_neg hlt, if_neg heq, lookup_cons_ite, ih hvec, lookup_cons_ite, lookup_cons_ite, if_neg heq]
      by_cases hk : k = i
      · subst hk
        rw [if_pos rfl, if_pos rfl, if_neg heq]
      · rw [if_neg hk, if_neg hk]

/-- The vector that some entries leave. -/
def gather (entries : List (Nat × K)) : List (Nat × K) := entries.foldl (fun vec e => addEntry e.1 e.2 vec) []

theorem gather_concat (entries : List (Nat × K)) (e : Nat × K) :
    gather (entries ++ [e]) = addEntry e.1 e.2 (gather entries) := List.foldl_append

theorem ascending_gather (entries : List (Nat × K)) : Ascending (gather entries) := by
  induction entries using List.reverseRecOn with
  | nil => exact .nil
  | append_singleton entries e ih =>
    rw [gather_concat]
    exact ih.addEntry e.1 e.2

theorem mem_gather {entries : List (Nat × K)} {e : Nat × K} (he : e ∈ gather entries) :
    ∃ e' ∈ entries, e'.1 = e.1 := by
  induction entries using List.reverseRecOn generalizing e with
  | nil => cases he
  | append_singleton entries x ih =>
    rw [gather_concat] at he
    rcases mem_addEntry he with hx | ⟨e', he', hindex⟩
    · exact ⟨x, List.mem_append_right _ (List.mem_singleton_self x), hx.symm⟩
    · obtain ⟨e'', he'', hindex'⟩ := ih he'
      exact ⟨e'', List.mem_append_left _ he'', hindex'.trans hindex⟩

theorem lookup_gather (entries : List (Nat × K)) (i : Nat) :
    (gather entries).lookup i = sumOf ((entries.filter fun e => e.1 == i).map Prod.snd) := by
  induction entries using List.reverseRecOn with
  | nil => rfl
  | append_singleton entries e ih =>
    rw [gather_concat, (ascending_gather entries).lookup_addEntry, List.filter_append, List.map_append]
    by_cases he : e.1 = i
    · subst he
      have hlast : [e].filter (fun x => x.1 == e.1) = [e] := by simp
      rw [if_pos rfl, ih, hlast]
      exact (sumOf_concat _ _).symm
    · have hlast : [e].filter (fun x => x.1 == i) = [] := by simp [he]
      rw [if_neg fun h => he h.symm, ih, hlast, List.map_nil, List.append_nil]

/-! ## The matrix -/

/-- The vector of a column gathers the triplets of the column. -/
theorem ofTriplets_vectors (m n : Nat) (triplets : List (Nat × Nat × K)) :
    (ofTriplets m n triplets).vectors.size = n ∧ ∀ j < n, (ofTriplets m n triplets).vectors.getD j [] =
      gather ((triplets.filter fun t => t.2.1 == j).map fun t => (t.1, t.2.2)) := by
  unfold ofTriplets
  dsimp only
  induction triplets using List.reverseRecOn with
  | nil => exact ⟨Array.size_replicate, fun j _ => getD_replicate n j []⟩
  | append_singleton triplets t ih =>
    obtain ⟨hsize, hvectors⟩ := ih
    rw [List.foldl_append]
    refine ⟨(Array.size_modify ..).trans hsize, fun j hj => ?_⟩
    rw [List.foldl_cons, List.foldl_nil, getD_modify, hsize, hvectors j hj, List.filter_append, List.map_append]
    by_cases ht : t.2.1 = j
    · have hlast : [t].filter (fun x => x.2.1 == j) = [t] := by simp [ht]
      rw [if_pos ⟨ht.symm, ht ▸ hj⟩, hlast, List.map_singleton, gather_concat]
    · have hlast : [t].filter (fun x => x.2.1 == j) = [] := by simp [ht]
      rw [if_neg fun h => ht h.1.symm, hlast, List.map_nil, List.append_nil]

/-- A matrix stores at a position the sum of the values given for it. -/
theorem stored_ofTriplets (m n : Nat) (triplets : List (Nat × Nat × K)) (i j : Nat) :
    (ofTriplets m n triplets).stored i j = if j < n then
      sumOf ((triplets.filter fun t => t.1 == i && t.2.1 == j).map fun t => t.2.2) else none := by
  obtain ⟨hsize, hvectors⟩ := ofTriplets_vectors m n triplets
  unfold stored
  by_cases hj : j < n
  · rw [if_pos hj, hvectors j hj, lookup_gather, List.filter_map, List.map_map, List.filter_filter]
    rfl
  · rw [if_neg hj, getD_of_size_le _ _ (hsize.le.trans (not_lt.mp hj))]
    rfl

omit [Scalar K] in
theorem stored_of_mem {a : Matrix K} (h : ∀ vec ∈ a.vectors, Ascending vec) (hj : j < a.vectors.size) {e : Nat × K}
    (he : e ∈ a.vectors[j]) : a.stored e.1 j = some e.2 := by
  unfold stored
  rw [Array.getD_eq_getD_getElem?, Array.getElem?_eq_getElem hj, Option.getD_some]
  exact lookup_of_mem (List.Pairwise.imp Nat.ne_of_lt (h _ (Array.getElem_mem hj))) he

omit [Scalar K] in
theorem mem_of_stored {a : Matrix K} (h : a.stored i j = some v) : ∃ vec ∈ a.vectors, (i, v) ∈ vec := by
  unfold stored at h
  by_cases hj : j < a.vectors.size
  · rw [Array.getD_eq_getD_getElem?, Array.getElem?_eq_getElem hj, Option.getD_some] at h
    exact ⟨_, Array.getElem_mem hj, mem_of_lookup h⟩
  · rw [getD_of_size_le _ _ (not_lt.mp hj)] at h
    cases h

theorem mem_ofTriplets_vectors {triplets : List (Nat × Nat × K)} (hvec : vec ∈ (ofTriplets m n triplets).vectors) :
    ∃ entries, vec = gather entries ∧ ∀ e ∈ entries, ∃ t ∈ triplets, t.1 = e.1 := by
  obtain ⟨hsize, hvectors⟩ := ofTriplets_vectors m n triplets
  obtain ⟨j, hj, rfl⟩ := Array.mem_iff_getElem.mp hvec
  have hget := hvectors j (hsize ▸ hj)
  rw [Array.getD_eq_getD_getElem?, Array.getElem?_eq_getElem hj, Option.getD_some] at hget
  refine ⟨_, hget, fun e he => ?_⟩
  obtain ⟨t, ht, rfl⟩ := List.mem_map.mp he
  exact ⟨t, (List.mem_filter.mp ht).1, rfl⟩

theorem ofTriplets_ascending {triplets : List (Nat × Nat × K)} (hvec : vec ∈ (ofTriplets m n triplets).vectors) :
    Ascending vec := by
  obtain ⟨entries, rfl, -⟩ := mem_ofTriplets_vectors hvec
  exact ascending_gather entries

theorem ofTriplets_wellFormed {triplets : List (Nat × Nat × K)} (h : ∀ t ∈ triplets, t.1 < m) :
    (ofTriplets m n triplets).WellFormed where
  vectors := (ofTriplets_vectors m n triplets).1
  inner vec hvec e he := by
    obtain ⟨entries, rfl, hentries⟩ := mem_ofTriplets_vectors hvec
    obtain ⟨e', he', hindex⟩ := mem_gather he
    obtain ⟨t, ht, hrow⟩ := hentries e' he'
    exact hindex ▸ hrow ▸ h t ht

/-! ## Rows -/

/-- What rows store in a column: the sum of the values that are not zero. -/
def storedIn (row : List (Nat × K)) (j : Nat) : Option K :=
  sumOf ((row.filter fun e => e.1 == j && e.2 != 0).map Prod.snd)

/-- The entries of one row among the triplets of all rows. -/
theorem filter_rows (rows : List (List (Nat × K))) (s i j : Nat) :
    (((rows.zipIdx s).flatMap fun (row, i) => (row.filter fun (_, v) => v != 0).map fun (j, v) => (i, j, v)).filter
      fun t => t.1 == i && t.2.1 == j).map (fun t => t.2.2) =
      if s ≤ i then (((rows[i - s]?).getD []).filter fun e => e.1 == j && e.2 != 0).map Prod.snd else [] := by
  induction rows generalizing s with
  | nil => simp
  | cons row rows ih =>
    have hrow : ((((row.filter fun (_, v) => v != 0).map fun (j, v) => (s, j, v)).filter
        fun t => t.1 == i && t.2.1 == j).map fun t => t.2.2) =
        if s = i then (row.filter fun e => e.1 == j && e.2 != 0).map Prod.snd else [] := by
      rw [List.filter_map, List.map_map, List.filter_filter]
      by_cases hs : s = i
      · simp [Function.comp_def, hs]
      · simp [Function.comp_def, hs]
    rw [List.zipIdx_cons, List.flatMap_cons, List.filter_append, List.map_append, ih, hrow]
    by_cases hs : s = i
    · subst hs
      rw [if_pos rfl, if_neg (by omega), if_pos (Nat.le_refl _), Nat.sub_self, List.getElem?_cons_zero,
        Option.getD_some, List.append_nil]
    · rw [if_neg hs, List.nil_append]
      by_cases hlt : s + 1 ≤ i
      · rw [if_pos hlt, if_pos (by omega), show i - s = i - (s + 1) + 1 by omega, List.getElem?_cons_succ]
      · rw [if_neg hlt, if_neg (by omega)]

theorem stored_ofRows (n : Nat) (rows : List (List (Nat × K))) (i j : Nat) :
    (ofRows n rows).stored i j = if j < n then (rows[i]?).bind (storedIn · j) else none := by
  unfold ofRows
  rw [stored_ofTriplets, filter_rows, if_pos (Nat.zero_le i), Nat.sub_zero]
  cases rows[i]? with
  | none => rfl
  | some row => rfl

theorem ofRows_wellFormed (n : Nat) (rows : List (List (Nat × K))) : (ofRows n rows).WellFormed := by
  refine ofTriplets_wellFormed fun t ht => ?_
  obtain ⟨⟨row, i⟩, hrow, ht⟩ := List.mem_flatMap.mp ht
  obtain ⟨e, -, rfl⟩ := List.mem_map.mp ht
  exact (List.mem_zipIdx' hrow).1

end BranchAndCut.Matrix

/-! ## Matrices with further rows and columns

Independent columns of a matrix beside a negative identity stay independent when rows and
columns are added, together with the new columns of the identity: the new columns proper
are at zero, so that the old rows decide the old columns, and these the new rows. -/

namespace BranchAndCut.Matrix

variable {a b : Matrix (Exact ℚ)} {i j : Nat}

/-! ### Values -/

theorem total_of_ascending {vec : List (Nat × Exact ℚ)} (h : Ascending vec) (i : Nat) :
    total vec i = ((vec.lookup i).map Exact.toField).getD 0 := by
  induction vec with
  | nil => rfl
  | cons e vec ih =>
    obtain ⟨he, hvec⟩ := List.pairwise_cons.mp h
    rw [total_cons, lookup_cons_ite]
    by_cases hi : i = e.1
    · have hrest : total vec i = 0 := by rw [ih hvec, lookup_of_lt fun k hk => hi ▸ he k hk]; rfl
      rw [if_pos hi, if_pos hi, hrest, add_zero]
      rfl
    · rw [if_neg hi, if_neg hi, zero_add, ih hvec]

theorem value_of_stored (h : ∀ vec ∈ a.vectors, Ascending vec) (i j : Nat) :
    a.value i j = ((a.stored i j).map Exact.toField).getD 0 := by
  refine total_of_ascending ?_ i
  by_cases hj : j < a.vectors.size
  · rw [Array.getD_eq_getD_getElem?, Array.getElem?_eq_getElem hj, Option.getD_some]
    exact h _ (Array.getElem_mem hj)
  · rw [getD_of_size_le _ _ (not_lt.mp hj)]
    exact .nil

/-! ### Independence -/

/-- Only zero satisfies the equations of the rows with all columns at zero but the given ones. -/
def Independent (a : Matrix (Exact ℚ)) (cols : Set Nat) : Prop :=
  ∀ z : Nat → ℚ, (∀ i < a.numRows, z (a.numCols + i) = a.apply z i) → (∀ k ∉ cols, z k = 0) → ∀ k, z k = 0

theorem sum_constraintColumn (a : Matrix (Exact ℚ)) (z : Nat → ℚ) (i : Fin a.numRows) :
    ∑ j ∈ Finset.range (a.numCols + a.numRows), a.constraintColumn j i * z j = a.apply z i - z (a.numCols + i) := by
  have hcols : ∀ j ∈ Finset.range a.numCols, a.constraintColumn j i * z j = a.value i j * z j := fun j hj => by
    have hlt := Finset.mem_range.mp hj
    rw [constraintColumn, if_neg (by omega), if_pos hlt]
  have hslacks : ∀ k ∈ Finset.range a.numRows, a.constraintColumn (a.numCols + k) i * z (a.numCols + k) =
      if k = i then -z (a.numCols + i) else 0 := fun k _ => by
    rw [constraintColumn]
    by_cases hk : k = i
    · rw [if_pos (by omega), if_pos hk, hk, neg_one_mul]
    · rw [if_neg (by omega), if_neg (by omega), if_neg hk, zero_mul]
  rw [Finset.sum_range_add, Finset.sum_congr rfl hcols, Finset.sum_congr rfl hslacks, Finset.sum_ite_eq',
    if_pos (Finset.mem_range.mpr i.isLt), sub_eq_add_neg]
  rfl

/-- Independence, said of the matrix and said of its constraint rows. -/
theorem Tabulates.independent [Rooted ℚ] {base : Array (Array (Exact ℚ))}
    (h : Tabulates a.numRows (a.numCols + a.numRows) base fun i k =>
      if k = a.numCols + i then -1 else if k < a.numCols then a.value i k else 0) (cols : List Nat) :
    (Tableau.start base).Independent (a.numCols + a.numRows) cols ↔ a.Independent {j | j ∈ cols} := by
  have hsolves : ∀ z, (Tableau.start base).Solves (a.numCols + a.numRows) z ↔
      ∀ i < a.numRows, z (a.numCols + i) = a.apply z i := fun z => by
    rw [h.solves_iff, Fin.forall_iff]
    refine forall₂_congr fun i hi => ?_
    rw [sum_constraintColumn a z ⟨i, hi⟩, sub_eq_zero, eq_comm]
  unfold Tableau.Independent Independent
  simp only [hsolves]
  rfl

/-- The first rows and columns of a matrix are those of another. -/
structure Extends (a b : Matrix (Exact ℚ)) : Prop where
  rows : a.numRows ≤ b.numRows
  cols : a.numCols ≤ b.numCols
  value : ∀ i < a.numRows, ∀ j < a.numCols, b.value i j = a.value i j

/-- **Independent columns stay independent** beside the columns of new rows, if no new column
proper is among them. -/
theorem Independent.extend {old new : Set Nat} (h : a.Independent old) (hext : a.Extends b)
    (hlt : ∀ j ∈ new, j < b.numCols + b.numRows) (hcols : ∀ j ∈ new, j < b.numCols → j < a.numCols ∧ j ∈ old)
    (hslacks : ∀ i < a.numRows, b.numCols + i ∈ new → a.numCols + i ∈ old) : b.Independent new := by
  intro z hz hvoid
  -- the columns and rows of `a` alone
  let y : Nat → ℚ := fun j => if j < a.numCols then z j
    else if j - a.numCols < a.numRows then z (b.numCols + (j - a.numCols)) else 0
  have hycol : ∀ j < a.numCols, y j = z j := fun j hj => if_pos hj
  have hyslack : ∀ i < a.numRows, y (a.numCols + i) = z (b.numCols + i) := fun i hi => by
    have hsub : a.numCols + i - a.numCols = i := Nat.add_sub_cancel_left _ _
    simp only [y, hsub, if_neg (Nat.not_lt.mpr (Nat.le_add_right a.numCols i)), if_pos hi]
  have happly : ∀ i < a.numRows, a.apply y i = b.apply z i := fun i hi => by
    refine Eq.trans (Finset.sum_congr rfl fun j hj => ?_)
      (Finset.sum_subset (Finset.range_subset_range.mpr hext.cols) fun j hj hnew => ?_)
    · have hj := Finset.mem_range.mp hj
      rw [hext.value i hi j hj, hycol j hj]
    · rw [hvoid j fun hin => hnew (Finset.mem_range.mpr (hcols j hin (Finset.mem_range.mp hj)).1), mul_zero]
  have hzero := h y (fun i hi => by rw [hyslack i hi, happly i hi, hz i (hi.trans_le hext.rows)]) fun k hk => by
    by_cases hcol : k < a.numCols
    · rw [hycol k hcol]
      exact hvoid k fun hin => hk (hcols k hin (hcol.trans_le hext.cols)).2
    · by_cases hrow : k - a.numCols < a.numRows
      · obtain ⟨i, rfl⟩ : ∃ i, k = a.numCols + i := ⟨k - a.numCols, by omega⟩
        rw [Nat.add_sub_cancel_left] at hrow
        rw [hyslack i hrow]
        exact hvoid _ fun hin => hk (hslacks i hrow hin)
      · exact (if_neg hcol).trans (if_neg hrow)
  have hcol : ∀ j < b.numCols, z j = 0 := fun j hj => by
    by_cases hold : j < a.numCols
    · exact hycol j hold ▸ hzero j
    · exact hvoid j fun hin => hold (hcols j hin hj).1
  intro k
  by_cases hk : k < b.numCols
  · exact hcol k hk
  by_cases hrow : k < b.numCols + b.numRows
  · obtain ⟨i, rfl⟩ : ∃ i, k = b.numCols + i := ⟨k - b.numCols, by omega⟩
    rw [hz i (by omega)]
    exact Finset.sum_eq_zero fun j hj => by rw [hcol j (Finset.mem_range.mp hj), mul_zero]
  · exact hvoid k fun hin => hrow (hlt k hin)

end BranchAndCut.Matrix

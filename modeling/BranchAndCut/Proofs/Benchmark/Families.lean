import BranchAndCut.Proofs.Benchmark.Facility

/-! # Generated models are feasible

Every family of generated models builds without an error, and each of its models has a feasible
point: everything taken for the covering models, nothing for the knapsacks. A row of a covering
model is completed with sets drawn at random, which comes to an end because no set can be drawn
for ever. -/

namespace BranchAndCut.Benchmark

section Families

variable [Rooted ℚ] {σ : Type} {n k : Nat}

/-! ## Covering -/

/-- The sets, of `n`, that a row has. -/
def coveringSets (n : Nat) (r : Row (Exact ℚ)) : Finset VarId :=
  (Finset.range n).filter fun v => v ∈ r.coefs.map Prod.fst

/-- The plan of a covering model: everything is taken. Its rows have at least two sets, if there
are two. -/
def coverPlan (n : Nat) : Plan where
  point := Array.replicate n 1
  varName j := "s" ++ toString j
  consName i := "cover" ++ toString i
  AcceptsRow r := min n 2 ≤ (coveringSets n r).card
  AcceptsSet _ := False

omit [Rooted ℚ] in
theorem coord_coverPlan {v : VarId} (hv : v < n) : (coverPlan n).point.coord v = 1 := by
  unfold coverPlan Point.coord
  dsimp only
  rw [Array.getD, dif_pos (Array.size_replicate.symm ▸ hv)]
  exact Array.getElem_replicate _

/-- **A row of a covering model** has all the sets it was made from. -/
theorem mem_row_covers {l : List VarId} {v : VarId} (hv : v ∈ l) (lhs rhs : Exact ℚ) :
    v ∈ (Row.of (covers l) lhs rhs).coefs.map Prod.fst := by
  have hgiven : covers l = (l.map fun v => (v, (1 : ℚ))).map fun c => (c.1, .fin c.2) := by
    unfold covers
    rw [List.map_map]
    exact List.map_congr_left fun v _ => congrArg (v, ·) Exact.one_def
  have hsums := Row.sums_of (l.map fun v => (v, 1)) lhs rhs
  rw [← hgiven] at hsums
  have hcoef := hsums.coef v
  unfold Row.coef at hcoef
  cases hfind : Row.find? (Row.of (covers l) lhs rhs).coefs v with
  | some a => exact List.mem_map.mpr ⟨(v, a), hsums.ordered.find?_eq_some_iff.mp hfind, rfl⟩
  | none =>
    -- the coefficient is the number of times that the set was given
    rw [hfind, Option.getD_none, Exact.zero_def, Exact.fin.injEq] at hcoef
    have hpos : 0 < (((l.map fun v => (v, (1 : ℚ))).filter fun c => c.1 = v).map Prod.snd).sum := by
      refine List.sum_pos _ (fun q hq => ?_) (List.ne_nil_of_mem (a := 1) ?_)
      · obtain ⟨c, hc, rfl⟩ := List.mem_map.mp hq
        obtain ⟨w, -, rfl⟩ := List.mem_map.mp (List.mem_filter.mp hc).1
        exact one_pos
      · exact List.mem_map.mpr ⟨(v, 1), List.mem_filter.mpr ⟨List.mem_map_of_mem hv, decide_eq_true rfl⟩, rfl⟩
    exact absurd hcoef hpos.ne

theorem card_row_covers {l : List VarId} (h : l.Nodup) (hlt : ∀ v ∈ l, v < n) (lhs rhs : Exact ℚ) :
    l.length ≤ (coveringSets n (Row.of (covers l) lhs rhs)).card := by
  rw [← List.toFinset_card_of_nodup h]
  refine Finset.card_le_card fun v hv => ?_
  rw [List.mem_toFinset] at hv
  exact Finset.mem_filter.mpr ⟨Finset.mem_range.mpr (hlt v hv), mem_row_covers hv lhs rhs⟩

/-- A set, or none. -/
theorem fills_member (I : Model (Exact ℚ) σ → Prop) (s : VarId) :
    Fills (do return if (← drawUnit (K := Exact ℚ)) < 0.15 then some (s, (1 : Exact ℚ)) else none) I
      fun found m => (found = some (s, 1) ∨ found = none) ∧ I m := by
  refine .bind (fills_drawUnit I) fun u => .assume fun _ => .pure fun m hm => ⟨?_, hm⟩
  split
  · exact .inl rfl
  · exact .inr rfl

/-- **Some of the sets**, at random. -/
theorem fills_members (I : Model (Exact ℚ) σ → Prop) (sets : List VarId) :
    Fills (sets.filterMapM fun s => do
        return if (← drawUnit (K := Exact ℚ)) < 0.15 then some (s, (1 : Exact ℚ)) else none) I
      fun row m => (∃ l : List VarId, l.Sublist sets ∧ row = covers l) ∧ I m := by
  induction sets with
  | nil => exact .pure fun m hm => ⟨⟨[], .slnil, rfl⟩, hm⟩
  | cons s sets ih =>
    rw [List.filterMapM_cons]
    refine .bind (fills_member I s) fun found => .assume fun hfound => ?_
    rcases hfound with rfl | rfl
    · refine .bind ih fun row => .assume fun ⟨l, hl, hrow⟩ => .pure fun m hm => ?_
      exact ⟨⟨s :: l, hl.cons_cons s, hrow ▸ rfl⟩, hm⟩
    · exact ih.mono (fun _ => id) fun row m ⟨⟨l, hl, hrow⟩, hm⟩ => ⟨⟨l, hl.cons s, hrow⟩, hm⟩

/-- **The completion of a row** comes to an end with enough sets. -/
theorem fills_complete (hn : 1 ≤ n) (hn' : n < 2 ^ 32) {l : List VarId} (hl : l.Sublist (List.range n))
    (I : Model (Exact ℚ) σ → Prop) :
    Fills (complete (List.range n).toArray (Nat.min n 2) (covers l) (Nat.pow 2 64)) I fun row m =>
      (∃ l', l'.Nodup ∧ (∀ v ∈ l', v < n) ∧ min n 2 ≤ l'.length ∧ row = covers l') ∧ I m := by
  intro g m hm
  have hfuel : Generator.halfPeriod + 3 ≤ Nat.pow 2 64 := by
    unfold Generator.halfPeriod
    norm_num
  obtain ⟨l', g', hnodup, hlt, hlength, heq⟩ := complete_returns (σ := σ) hn hn'
    (fun v hv => List.mem_range.mp (hl.subset hv)) (hl.nodup List.nodup_range) hfuel g
  rw [show Nat.min n 2 = min n 2 from rfl, heq]
  exact .pure ⟨⟨l', hnodup, hlt, hlength, rfl⟩, hm⟩

/-- **Covering of elements by sets.** -/
theorem fills_setCover (hn : 1 ≤ n) (hn' : n < 2 ^ 32) (elements : Nat) :
    Fills (setCover n elements) (Fits (coverPlan n) 0 0)
      fun _ (m : Model (Exact ℚ) σ) => Fits (coverPlan n) n elements m := by
  unfold setCover
  refine .bind (fills_items "s" (fun _ _ => rfl) (fun j hj => .inr (coord_coverPlan hj)) 1 20) fun sets =>
    .assume fun hsets => ?_
  subst hsets
  refine (Fills.forM (I := fun e => Fits _ n e) fun e he => ?_).mono (fun _ => id) fun _ t ht => ?_
  · rw [List.getElem_range]
    refine .bind (fills_members _ _) fun row => .assume fun ⟨l, hl, hrow⟩ => ?_
    subst hrow
    refine .bind (fills_complete hn hn' hl _) fun row => .assume fun ⟨l', hnodup, hlt, hlength, hrow⟩ => ?_
    subst hrow
    refine fills_linear (P := coverPlan n) (fresh_of_injective (numbered_injective "cover") e) ?_ rfl ?_ ?_
      (hlength.trans (card_row_covers hnodup hlt ..))
    · exact fun c hc => ⟨hlt _ (mem_covers hc).1, (mem_covers hc).2 ▸ rfl⟩
    · have hpos : 1 ≤ l'.length := by omega
      rw [total_covers, sum_constant fun v hv => coord_coverPlan (hlt v hv), mul_one, Exact.one_def, Exact.fin_le]
      exact_mod_cast hpos
    · trivial
  · rwa [List.length_range] at ht

/-! ## Knapsacks -/

/-- Natural weights of known variables. -/
def Weighs (n : Nat) (row : List (VarId × Exact ℚ)) : Prop := ∀ c ∈ row, c.1 < n ∧ ∃ w : Nat, c.2 = .fin w

/-- The plan of a model in which nothing is taken. -/
def emptyPlan (n : Nat) (consName : Nat → String) : Plan where
  point := Array.replicate n 0
  varName j := "x" ++ toString j
  consName := consName
  AcceptsRow _ := True
  AcceptsSet _ := True

omit [Rooted ℚ] in
theorem coord_emptyPlan (n : Nat) (consName : Nat → String) (v : VarId) : (emptyPlan n consName).point.coord v = 0 := by
  unfold emptyPlan Point.coord
  dsimp only
  exact getD_replicate n v 0

omit [Rooted ℚ] in
theorem varName_emptyPlan (consName : Nat → String) (j : Nat) :
    ∀ i < j, (emptyPlan n consName).varName i ≠ (emptyPlan n consName).varName j :=
  fresh_of_injective (numbered_injective "x") j

/-- A sum of natural weights. -/
theorem sum_weights {α : Type} {l : List α} {f : α → Exact ℚ} (h : ∀ e ∈ l, ∃ w : Nat, f e = .fin w) :
    ∃ s : ℚ, 0 ≤ s ∧ Scalar.sum (l.map f) = .fin s := by
  refine ⟨(l.map fun e => (f e).toField).sum, List.sum_nonneg fun q hq => ?_, sum_map_fin fun e he => ?_⟩
  · obtain ⟨e, he, rfl⟩ := List.mem_map.mp hq
    obtain ⟨w, hw⟩ := h e he
    rw [hw, Exact.toField_fin]
    exact Nat.cast_nonneg w
  · obtain ⟨w, hw⟩ := h e he
    rw [hw, Exact.toField_fin]

/-- **A knapsack row fits** while nothing is taken, whatever its capacity. -/
theorem fills_capacity (consName : Nat → String) (hfresh : ∀ i < k, consName i ≠ consName k)
    {row : List (VarId × Exact ℚ)} (hrow : Weighs n row) {N : Nat} {capacity : ℚ} (hcapacity : 0 ≤ capacity) :
    Fills (linear (consName k) row Scalar.negInf (.fin capacity)) (Fits (emptyPlan N consName) n k)
      fun _ (m : Model (Exact ℚ) σ) => Fits (emptyPlan N consName) n (k + 1) m := by
  have htotal : Row.total row (emptyPlan N consName).point = 0 :=
    List.sum_eq_zero fun q hq => by
      obtain ⟨c, -, rfl⟩ := List.mem_map.mp hq
      rw [Row.termAt, coord_emptyPlan, mul_zero]
  refine fills_linear hfresh (fun c hc => ?_) rfl ?_ ?_ trivial
  · obtain ⟨hv, w, hw⟩ := hrow c hc
    exact ⟨hv, hw ▸ rfl⟩
  · exact trivial
  · rw [htotal]
    exact hcapacity

/-- A share of a total weight, rounded down. -/
theorem floor_share {α : Type} {l : List α} {f : α → Exact ℚ} (h : ∀ e ∈ l, ∃ w : Nat, f e = .fin w) {a : ℚ}
    (ha : 0 ≤ a) : ∃ q : ℚ, 0 ≤ q ∧ Scalar.floor (.fin a * Scalar.sum (l.map f)) = .fin q := by
  obtain ⟨s, hs, hsum⟩ := sum_weights h
  rw [hsum]
  exact ⟨⌊a * s⌋, Int.cast_nonneg (Int.floor_nonneg.mpr (mul_nonneg ha hs)), rfl⟩

theorem half_eq (s : ℚ) : Exact.fin s / (2 : Exact ℚ) = .fin (1 / 2) * .fin s := by
  show Exact.fin s / Exact.fin ((2 : ℕ) : ℚ) = _
  rw [Exact.fin_div (by norm_num), Exact.fin_mul]
  congr 1
  push_cast
  ring

/-- **The items of one knapsack**, with the weights that were drawn for them. -/
theorem fills_weighted {weights : List (Exact ℚ)} (h : ∀ w ∈ weights, ∃ n : Nat, w = .fin n)
    (N : Nat) (consName : Nat → String) :
    Fills (weights.zipIdx.mapM fun (w, j) => do
        let v ← draw 0 10
        return (← binary s!"x{j}" (w + v), w)) (Fits (emptyPlan N consName) 0 0)
      fun row (m : Model (Exact ℚ) σ) => Weighs weights.length row ∧
        Fits (emptyPlan N consName) weights.length 0 m := by
  refine (Fills.mapM (I := fun row m => Weighs row.length row ∧ Fits _ row.length 0 m) fun row hlt =>
    .assume fun hrow => ?_).mono (fun m hm => ⟨nofun, hm⟩) fun row m ⟨hlength, hm⟩ => ?_
  · rw [List.getElem_zipIdx, Nat.zero_add]
    rw [List.length_zipIdx] at hlt
    obtain ⟨w, hw⟩ := h _ (List.getElem_mem hlt)
    dsimp only
    rw [hw]
    refine .bind (fills_draw 0 10 _) fun v => .assume fun ⟨v', hv⟩ => ?_
    subst hv
    refine .bind (fills_binary (varName_emptyPlan _ row.length) _ (.inl (coord_emptyPlan ..))) fun x =>
      .assume fun hx => .pure fun m hm => ?_
    rw [List.length_append, List.length_singleton]
    refine ⟨fun c hc => ?_, hm⟩
    rcases List.mem_append.mp hc with hc | hc
    · exact ⟨Nat.lt_succ_of_lt (hrow c hc).1, (hrow c hc).2⟩
    · obtain rfl := List.mem_singleton.mp hc
      exact ⟨hx ▸ Nat.lt_succ_self _, w, rfl⟩
  · rw [List.length_zipIdx] at hlength
    rwa [hlength] at hm

/-- **One knapsack.** -/
theorem fills_knapsack (n : Nat) : Fills (knapsack n) (Fits (emptyPlan n fun _ => "capacity") 0 0)
    fun _ (m : Model (Exact ℚ) σ) => Fits (emptyPlan n fun _ => "capacity") n 1 m := by
  unfold knapsack
  refine .bind (fills_maximize _) fun _ => .bind (Fills.mapM_each fun _ _ => fills_draw 10 100 _) fun weights =>
    .assume fun hlength => .assume fun hweights => .bind (fills_weighted hweights n _) fun row => .assume fun hrow => ?_
  rw [List.length_range] at hlength
  rw [hlength] at hrow ⊢
  obtain ⟨q, hq, hfloor⟩ := floor_share (f := id) hweights (by norm_num : (0 : ℚ) ≤ 1 / 2)
  obtain ⟨s, -, hsum⟩ := sum_weights (f := id) hweights
  rw [List.map_id] at hsum hfloor
  rw [hsum] at hfloor ⊢
  rw [half_eq, hfloor]
  exact fills_capacity (fun _ => "capacity") (fun i hi => absurd hi (Nat.not_lt_zero i)) hrow hq

/-- **Several knapsacks over the same items.** -/
theorem fills_multiKnapsack (n m : Nat) :
    Fills (multiKnapsack n m) (Fits (emptyPlan n fun i => "dim" ++ toString i) 0 0)
      fun _ (t : Model (Exact ℚ) σ) => Fits (emptyPlan n fun i => "dim" ++ toString i) n m t := by
  unfold multiKnapsack
  refine .bind (fills_maximize _) fun _ => .bind (fills_items "x" (fun _ _ => rfl)
    (fun j _ => .inl (coord_emptyPlan ..)) 1 50) fun vars => .assume fun hvars => ?_
  subst hvars
  refine (Fills.forM (I := fun i => Fits _ n i) fun i hi => ?_).mono (fun _ => id) fun _ t ht => ?_
  · rw [List.getElem_range]
    refine .bind (Fills.mapM_each (Q := fun c => c.1 < n ∧ ∃ w : Nat, c.2 = .fin w) fun v hv => ?_) fun row =>
      .assume fun _ => .assume fun hrow => ?_
    · refine .bind (fills_draw 5 40 _) fun w => .assume fun hw => .pure fun t ht => ?_
      exact ⟨⟨List.mem_range.mp hv, hw⟩, ht⟩
    · have hshare : (0.3 : Exact ℚ) = .fin (3 / 10) := by
        rw [Exact.scientific_def]
        norm_num
      obtain ⟨q, hq, hfloor⟩ := floor_share (f := Prod.snd) (fun c hc => (hrow c hc).2)
        (by norm_num : (0 : ℚ) ≤ 3 / 10)
      unfold total
      rw [hshare, hfloor]
      exact fills_capacity _ (fresh_of_injective (numbered_injective "dim") i) hrow hq
  · rwa [List.length_range] at ht

/-! ## Groups -/

/-- The number of groups that are closed before item `j`. -/
def closedGroups (n j : Nat) : Nat := if j < n then j / 4 else (n + 3) / 4

/-- The plan of a grouped knapsack: the groups come first. -/
def groupedPlan (n : Nat) : Plan :=
  emptyPlan n fun i => if i < (n + 3) / 4 then "group" ++ toString i else "capacity"

omit [Rooted ℚ] in
theorem consName_groupedPlan (n k : Nat) (hk : k ≤ (n + 3) / 4) :
    ∀ i < k, (groupedPlan n).consName i ≠ (groupedPlan n).consName k := by
  intro i hi heq
  have hgroup : (groupedPlan n).consName i = "group" ++ toString i := if_pos (Nat.lt_of_lt_of_le hi hk)
  rw [hgroup] at heq
  by_cases hlt : k < (n + 3) / 4
  · have hgroup' : (groupedPlan n).consName k = "group" ++ toString k := if_pos hlt
    rw [hgroup'] at heq
    exact Nat.ne_of_lt hi ((numbered_inj "group").mp heq)
  · have hcapacity : (groupedPlan n).consName k = "capacity" := if_neg hlt
    rw [hcapacity] at heq
    have hhead := congrArg (fun s => s.toList.head?) heq
    rw [head?_append rfl] at hhead
    cases hhead

/-- The members of a group that is open: as many as items since the last group was closed. -/
structure Opened (n j : Nat) (group : List VarId) : Prop where
  known : ∀ v ∈ group, v < j
  nodup : group.Nodup
  length : j < n → group.length = j % 4

/-- **A group is closed** after every fourth item and after the last one. -/
theorem fills_closeGroup {j : Nat} (hj : j < n) (hfull : j % 4 + 1 = 4 ∨ j + 1 = n) {group : List VarId}
    (hknown : ∀ v ∈ group, v < j + 1) (hnodup : group.Nodup) :
    Fills ((Model.addSos1 s!"group{j / 4}" group : ModelM (Exact ℚ) σ ConsId) : BuildM (Exact ℚ) σ ConsId)
      (Fits (groupedPlan n) (j + 1) (closedGroups n j))
      fun _ => Fits (groupedPlan n) (j + 1) (closedGroups n (j + 1)) := by
  have hnumber : closedGroups n j = j / 4 := if_pos hj
  have hnext : closedGroups n (j + 1) = j / 4 + 1 := by
    unfold closedGroups
    split <;> omega
  have hlt : j / 4 < (n + 3) / 4 := by omega
  have hname : s!"group{j / 4}" = (groupedPlan n).consName (j / 4) := (if_pos hlt).symm
  rw [hnumber, hnext, hname]
  refine .lift fun m hm => hm.addSos1 (consName_groupedPlan n _ hlt.le) hknown hnodup ?_ trivial
  exact List.pairwise_of_forall fun v _ => .inl (coord_emptyPlan n _ v)

/-- **The items from number `j` on**, and their groups. -/
theorem fills_groupedItems (left j : Nat) (group : List VarId) (hleft : j + left = n) (hgroup : Opened n j group) :
    Fills (groupedItems n j group left) (Fits (groupedPlan n) j (closedGroups n j))
      fun row (m : Model (Exact ℚ) σ) => Weighs n row ∧ Fits (groupedPlan n) n ((n + 3) / 4) m := by
  induction left generalizing j group with
  | zero =>
    obtain rfl : j = n := hleft
    refine .pure fun m hm => ⟨nofun, ?_⟩
    rwa [closedGroups, if_neg (Nat.lt_irrefl j)] at hm
  | succ left ih =>
    have hj : j < n := by omega
    have hlength := hgroup.length hj
    unfold groupedItems
    refine .bind (fills_draw 10 60 _) fun w => .assume fun ⟨w', hw⟩ => ?_
    refine .bind (fills_draw 0 15 _) fun v => .assume fun ⟨v', hv⟩ => ?_
    subst hw hv
    refine .bind (fills_binary (P := groupedPlan n) (varName_emptyPlan _ j) _ (.inl (coord_emptyPlan ..))) fun x =>
      .assume fun hx => ?_
    obtain rfl := hx.symm
    -- the group with the new item
    have hknown : ∀ v ∈ group ++ [j], v < j + 1 := fun v hv => by
      rcases List.mem_append.mp hv with hv | hv
      · exact Nat.lt_succ_of_lt (hgroup.known v hv)
      · exact List.mem_singleton.mp hv ▸ Nat.lt_succ_self j
    have hnodup : (group ++ [j]).Nodup :=
      List.nodup_append.mpr ⟨hgroup.nodup, List.nodup_singleton j, fun a ha b hb heq =>
        Nat.ne_of_lt (hgroup.known a ha) (heq.trans (List.mem_singleton.mp hb))⟩
    have hsize : (group ++ [j]).length = j % 4 + 1 := by rw [List.length_append, hlength, List.length_singleton]
    have hrest : ∀ group', Opened n (j + 1) group' →
        Fills (do return (j, .fin (w' : ℚ)) :: (← groupedItems n (j + 1) group' left))
          (Fits (groupedPlan n) (j + 1) (closedGroups n (j + 1)))
          fun row (m : Model (Exact ℚ) σ) => Weighs n row ∧ Fits (groupedPlan n) n ((n + 3) / 4) m :=
      fun group' hgroup' => .bind (ih (j + 1) group' (by omega) hgroup') fun rest => .pure fun m ⟨hrow, hm⟩ =>
        ⟨List.forall_mem_cons.mpr ⟨⟨hj, w', rfl⟩, hrow⟩, hm⟩
    have hfull : ((group ++ [j]).length == 4 || j + 1 == n) = true ↔ j % 4 + 1 = 4 ∨ j + 1 = n := by
      rw [hsize, Bool.or_eq_true, beq_iff_eq, beq_iff_eq]
    dsimp only
    split
    · next htest =>
      refine .bind (fills_closeGroup hj (hfull.mp htest) hknown hnodup) fun _ => ?_
      exact hrest [] ⟨nofun, List.nodup_nil, fun hlt => by rw [List.length_nil]; have := hfull.mp htest; omega⟩
    · next htest =>
      have hopen : closedGroups n j = closedGroups n (j + 1) := by
        unfold closedGroups
        have := mt hfull.mpr htest
        split <;> split <;> omega
      rw [hopen]
      exact hrest _ ⟨hknown, hnodup, fun hlt => by rw [hsize]; have := mt hfull.mpr htest; omega⟩

/-- **A knapsack over groups of items.** -/
theorem fills_groupedKnapsack (n : Nat) : Fills (groupedKnapsack n) (Fits (groupedPlan n) 0 0)
    fun _ (m : Model (Exact ℚ) σ) => Fits (groupedPlan n) n ((n + 3) / 4 + 1) m := by
  have hnone : closedGroups n 0 = 0 := by
    unfold closedGroups
    split <;> omega
  unfold groupedKnapsack
  refine .bind (fills_maximize _) fun _ => .bind (hnone ▸ fills_groupedItems n 0 [] (Nat.zero_add n)
    ⟨nofun, List.nodup_nil, fun _ => rfl⟩) fun row => .assume fun hrow => ?_
  have hshare : (0.15 : Exact ℚ) = .fin (3 / 20) := by
    rw [Exact.scientific_def]
    norm_num
  obtain ⟨q, hq, hfloor⟩ := floor_share (f := Prod.snd) (fun c hc => (hrow c hc).2) (by norm_num : (0 : ℚ) ≤ 3 / 20)
  have hname : "capacity" = (groupedPlan n).consName ((n + 3) / 4) := (if_neg (Nat.lt_irrefl _)).symm
  unfold total
  rw [hshare, hfloor, hname]
  exact fills_capacity _ (consName_groupedPlan n _ (Nat.le_refl _)) hrow hq

/-! ## All families -/

/-- A covering model has nothing but rows. -/
theorem Fits.rows_only {m : Model (Exact ℚ) σ} (h : Fits (coverPlan n) n k m) : m.handlers.linear.conss.size = k := by
  have hnone : m.handlers.sos1.conss = #[] :=
    Array.eq_empty_iff_forall_not_mem.mpr fun set hset => (h.sets set hset).2
  rw [← h.stored, hnone, Array.size_empty, Nat.add_zero]

/-- **Every family succeeds**, with a model that is feasible. -/
theorem Family.fills_fill (f : Family) {size : Nat} (hsize : 1 ≤ size) (hle : size ≤ 2 ^ 20) (name : String) :
    Fills (f.fill size) (fun m => m = .new name) fun _ (m : Model (Exact ℚ) σ) => (∃ p, m.Feasible p) ∧
      (f = .setCover → m.numVars = size ∧ m.handlers.linear.conss.size = size / 2 + 1 ∧
        ∀ cons ∈ m.handlers.linear.conss, min size 2 ≤ (coveringSets size cons.row).card) := by
  cases f with
  | knapsack =>
    refine (fills_knapsack size).mono (fun m hm => hm ▸ .new _ name) fun _ m hm => ⟨⟨_, hm.feasible ?_⟩, nofun⟩
    exact Array.size_replicate
  | multiKnapsack =>
    refine (fills_multiKnapsack size 5).mono (fun m hm => hm ▸ .new _ name) fun _ m hm => ⟨⟨_, hm.feasible ?_⟩, nofun⟩
    exact Array.size_replicate
  | setCover =>
    refine (fills_setCover hsize (by omega) (size / 2 + 1)).mono (fun m hm => hm ▸ .new _ name) fun _ m hm =>
      ⟨⟨_, hm.feasible ?_⟩, fun _ => ⟨hm.numVars, hm.rows_only, fun cons hcons => (hm.rows cons hcons).2⟩⟩
    exact Array.size_replicate
  | facility =>
    have hthree : 3 ≤ Nat.min (Nat.max size 3) 20 := Nat.le_min.mpr ⟨Nat.le_max_right .., by decide⟩
    exact (fills_facility hthree (Nat.max size 2) name).mono (fun _ => id) fun _ m ⟨ds, hm⟩ =>
      ⟨⟨_, hm.feasible Array.size_ofFn⟩, nofun⟩
  | groupedKnapsack =>
    refine (fills_groupedKnapsack size).mono (fun m hm => hm ▸ .new _ name) fun _ m hm => ⟨⟨_, hm.feasible ?_⟩, nofun⟩
    exact Array.size_replicate

/-- **Generated models are feasible**: whatever the family, the size and the seed, a model is
built without an error, and it has a feasible point. In a covering model, every row has at least
two sets, or the only one there is. -/
theorem Family.build_feasible (f : Family) (size : Nat) (seed : UInt64) (hsize : 1 ≤ size) (hle : size ≤ 2 ^ 20) :
    ∃ m : Model (Exact ℚ) σ, f.build size seed = .ok m ∧ (∃ p, m.Feasible p) ∧
      (f = .setCover → m.numVars = size ∧ m.handlers.linear.conss.size = size / 2 + 1 ∧
        ∀ cons ∈ m.handlers.linear.conss, min size 2 ≤ (coveringSets size cons.row).card) := by
  obtain ⟨⟨_, g⟩, m, hreturns, hm⟩ := (f.fills_fill (σ := σ) hsize hle (instanceName f size seed) (.ofSeed seed) _
    rfl).exists_returns
  refine ⟨m, ?_, hm⟩
  unfold Family.build
  rw [hreturns]

end Families

/-- A covering model with three sets. -/
theorem Family.build_feasible_cover :
    (1 ≤ 3 ∧ 3 ≤ 2 ^ 20) ∧ ∃ m : Model (Exact ℚ) Unit, Family.setCover.build 3 7 = .ok m ∧ (∃ p, m.Feasible p) ∧
      m.numVars = 3 ∧ m.handlers.linear.conss.size = 2 ∧
        ∀ cons ∈ m.handlers.linear.conss, 2 ≤ (coveringSets 3 cons.row).card := by
  refine ⟨by decide, ?_⟩
  obtain ⟨m, hbuild, hfeasible, hrows⟩ := Family.setCover.build_feasible (σ := Unit) 3 7 (by decide) (by decide)
  exact ⟨m, hbuild, hfeasible, hrows rfl⟩

end BranchAndCut.Benchmark

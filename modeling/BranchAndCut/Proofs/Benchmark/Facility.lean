import BranchAndCut.Proofs.Benchmark.Filling

/-! # Generated facility models

A facility model has a feasible point whatever its demands are: all facilities are open, and
the demand of each customer is divided evenly among them. There are three facilities or more,
so no facility has to give more than a third of the total demand, and its capacity is at
least two fifths of it. -/

namespace BranchAndCut.Benchmark

variable {F : Nat} {ds : List Nat} {i j : Nat}

/-- The number of a flow variable. -/
def flowVar (F : Nat) (ds : List Nat) (i j : Nat) : Nat := F + (i * ds.length + j)

/-- The plan of a facility model: all facilities are open, and the demand of each customer is
divided evenly among them. -/
def flowPlan (F : Nat) (ds : List Nat) : Plan where
  point := Array.ofFn (n := F + F * ds.length) fun v => if v < F then 1 else ds.getD ((v - F) % ds.length) 0 / F
  varName v := if v < F then "y" ++ toString v
    else "x" ++ toString ((v - F) / ds.length) ++ "_" ++ toString ((v - F) % ds.length)
  consName c := if c < F * ds.length then "link" ++ toString (c / ds.length) ++ "_" ++ toString (c % ds.length)
    else if c < (F + 1) * ds.length then "demand" ++ toString (c - F * ds.length)
    else "capacity" ++ toString (c - (F + 1) * ds.length)
  AcceptsRow _ := True
  AcceptsSet _ := True

/-! ## Names -/

/-- A number by its quotient and remainder. -/
theorem eq_of_div_mod {a b c : Nat} (hdiv : a / c = b / c) (hmod : a % c = b % c) : a = b := by
  rw [← Nat.div_add_mod a c, ← Nat.div_add_mod b c, hdiv, hmod]

theorem varName_flowPlan_inj : Function.Injective (flowPlan F ds).varName := by
  have hinitial : ∀ v, ((flowPlan F ds).varName v).toList.head? = if v < F then some 'y' else some 'x' := fun v => by
    unfold flowPlan
    dsimp only
    split
    · exact head?_append rfl _
    · exact head?_append (head?_append (head?_append rfl _) _) _
  intro v w h
  have hhead := congrArg (fun s => s.toList.head?) h
  rw [hinitial, hinitial] at hhead
  unfold flowPlan at h
  dsimp only at h
  split_ifs at h hhead
  · exact (numbered_inj "y").mp h
  · cases hhead
  · cases hhead
  · obtain ⟨hdiv, hmod⟩ := (barred_inj "x").mp h
    have := eq_of_div_mod hdiv hmod
    omega

theorem consName_flowPlan_inj : Function.Injective (flowPlan F ds).consName := by
  have hinitial : ∀ c, ((flowPlan F ds).consName c).toList.head? =
      if c < F * ds.length then some 'l' else if c < (F + 1) * ds.length then some 'd' else some 'c' := fun v => by
    unfold flowPlan
    dsimp only
    split
    · exact head?_append (head?_append (head?_append rfl _) _) _
    · split <;> exact head?_append rfl _
  intro c c' h
  have hhead := congrArg (fun s => s.toList.head?) h
  rw [hinitial, hinitial] at hhead
  unfold flowPlan at h
  dsimp only at h
  split_ifs at h hhead
  · obtain ⟨hdiv, hmod⟩ := (barred_inj "link").mp h
    exact eq_of_div_mod hdiv hmod
  · cases hhead
  · cases hhead
  · cases hhead
  · have := (numbered_inj "demand").mp h
    omega
  · cases hhead
  · cases hhead
  · cases hhead
  · have := (numbered_inj "capacity").mp h
    omega

theorem grid_lt (hi : i < F) (hj : j < ds.length) : i * ds.length + j < F * ds.length :=
  calc i * ds.length + j < i * ds.length + ds.length := Nat.add_lt_add_left hj _
    _ = (i + 1) * ds.length := (Nat.succ_mul i _).symm
    _ ≤ F * ds.length := Nat.mul_le_mul_right _ hi

theorem div_grid (hj : j < ds.length) : (i * ds.length + j) / ds.length = i := by
  rw [Nat.mul_comm, Nat.mul_add_div (Nat.zero_lt_of_lt hj), Nat.div_eq_of_lt hj, Nat.add_zero]

theorem mod_grid (hj : j < ds.length) : (i * ds.length + j) % ds.length = j := by
  rw [Nat.mul_comm, Nat.mul_add_mod, Nat.mod_eq_of_lt hj]

theorem varName_flowVar (hj : j < ds.length) :
    (flowPlan F ds).varName (flowVar F ds i j) = "x" ++ toString i ++ "_" ++ toString j := by
  unfold flowPlan flowVar
  dsimp only
  rw [if_neg (Nat.not_lt.mpr (Nat.le_add_right ..)), Nat.add_sub_cancel_left, mod_grid hj, div_grid hj]

theorem consName_link (hi : i < F) (hj : j < ds.length) :
    (flowPlan F ds).consName (i * ds.length + j) = "link" ++ toString i ++ "_" ++ toString j := by
  unfold flowPlan
  dsimp only
  rw [if_pos (grid_lt hi hj), mod_grid hj, div_grid hj]

theorem consName_demand (hj : j < ds.length) :
    (flowPlan F ds).consName (F * ds.length + j) = "demand" ++ toString j := by
  unfold flowPlan
  dsimp only
  rw [if_neg (Nat.not_lt.mpr (Nat.le_add_right ..)), if_pos (by rw [Nat.succ_mul]; omega), Nat.add_sub_cancel_left]

theorem consName_capacity (F : Nat) (ds : List Nat) (i : Nat) :
    (flowPlan F ds).consName ((F + 1) * ds.length + i) = "capacity" ++ toString i := by
  unfold flowPlan
  dsimp only
  rw [if_neg (by rw [Nat.succ_mul]; omega), if_neg (by omega), Nat.add_sub_cancel_left]

/-! ## Values -/

theorem coord_opening (hi : i < F) : (flowPlan F ds).point.coord i = 1 := by
  have hlt : i < F + F * ds.length := Nat.lt_add_right _ hi
  unfold flowPlan Point.coord
  simp [hi, hlt]

theorem coord_flowVar (hi : i < F) (hj : j < ds.length) :
    (flowPlan F ds).point.coord (flowVar F ds i j) = ds.getD j 0 / F := by
  have hlt := grid_lt hi hj
  unfold flowPlan Point.coord flowVar
  simp [hlt, mod_grid hj]

/-- The demands as numbers. -/
def demands (ds : List Nat) : List (Exact ℚ) := ds.map fun w : Nat => .fin w

theorem length_demands (ds : List Nat) : (demands ds).length = ds.length := List.length_map _

theorem getElem_demands (hj : j < ds.length) (hj' : j < (demands ds).length) : (demands ds)[j] = .fin (ds[j] : ℚ) :=
  List.getElem_map _

theorem exists_demands {l : List (Exact ℚ)} (h : ∀ d ∈ l, ∃ w : Nat, d = .fin w) : ∃ ds, demands ds = l := by
  have hmem : l ∈ Set.range (List.map fun w : Nat => (.fin w : Exact ℚ)) := by
    rw [Set.range_list_map]
    exact fun d hd => (h d hd).imp fun _ heq => heq.symm
  exact hmem

/-- The total demand. -/
def wanted (ds : List Nat) : ℚ := (ds.map fun w : Nat => (w : ℚ)).sum

theorem wanted_nonneg (ds : List Nat) : 0 ≤ wanted ds := List.sum_nonneg fun q hq => by
  obtain ⟨w, -, rfl⟩ := List.mem_map.mp hq
  exact Nat.cast_nonneg w

/-- What flows out of a facility. -/
theorem sum_flows (hi : i < F) :
    (((List.range ds.length).map (flowVar F ds i)).map fun x => (flowPlan F ds).point.coord x).sum = wanted ds / F := by
  have hvalues : ((List.range ds.length).map (flowVar F ds i)).map (fun x => (flowPlan F ds).point.coord x) =
      ds.map fun w : Nat => (w : ℚ) * (F : ℚ)⁻¹ := by
    rw [List.map_map]
    refine List.ext_getElem (by rw [List.length_map, List.length_range, List.length_map]) fun j hj _ => ?_
    rw [List.length_map, List.length_range] at hj
    rw [List.getElem_map, List.getElem_range, Function.comp_apply, coord_flowVar hi hj, List.getElem_map,
      List.getD_eq_getElem _ _ hj, div_eq_mul_inv]
  rw [hvalues, List.sum_map_mul_right, wanted, div_eq_mul_inv]

/-! ## Building -/

variable [Rooted ℚ] {σ : Type}

theorem sum_demands (ds : List Nat) : Scalar.sum (demands ds) = .fin (wanted ds) := sum_map_fin fun _ _ => rfl

/-- **One flow** from a facility to a customer, and the link to the opening of the facility. -/
theorem fills_flow (hi : i < F) (hj : j < ds.length) :
    Fills (do
      let cost ← draw 1 30
      let x ← (Model.addVar ("x" ++ toString i ++ "_" ++ toString j) .continuous 0 (.fin (ds[j] : ℚ)) cost :
        ModelM (Exact ℚ) σ VarId)
      linear ("link" ++ toString i ++ "_" ++ toString j) [(x, 1), (i, -.fin (ds[j] : ℚ))] Scalar.negInf 0
      return x : BuildM (Exact ℚ) σ VarId)
      (Fits (flowPlan F ds) (F + (i * ds.length + j)) (i * ds.length + j)) fun x m =>
        x = flowVar F ds i j ∧ Fits (flowPlan F ds) (F + (i * ds.length + (j + 1))) (i * ds.length + (j + 1)) m := by
  have hvalue : (flowPlan F ds).point.coord (flowVar F ds i j) = ds[j] / F := by
    rw [coord_flowVar hi hj, List.getD_eq_getElem _ _ hj]
  have hshare : (ds[j] : ℚ) / F ≤ ds[j] :=
    div_le_self (Nat.cast_nonneg _) (by exact_mod_cast Nat.one_le_of_lt hi)
  rw [← varName_flowVar (F := F) hj, ← consName_link hi hj]
  refine .bind (fills_draw 1 30 _) fun cost => .assume fun ⟨c, hc⟩ => ?_
  subst hc
  refine .bind (.lift fun m hm => hm.addVar (fresh_of_injective varName_flowPlan_inj _) ?_ ?_ (.inr rfl))
    fun x => .assume fun hx => ?_
  · show 0 ≤ (flowPlan F ds).point.coord (flowVar F ds i j)
    rw [hvalue]
    positivity
  · show (flowPlan F ds).point.coord (flowVar F ds i j) ≤ ds[j]
    rw [hvalue]
    exact hshare
  subst hx
  refine .bind (fills_linear (fresh_of_injective consName_flowPlan_inj _) ?_ rfl trivial ?_ trivial)
    fun _ => .pure fun m hm => ⟨rfl, hm⟩
  · intro c hc
    rw [List.mem_cons, List.mem_singleton] at hc
    rcases hc with rfl | rfl
    · exact ⟨Nat.lt_succ_self _, by rw [Exact.one_def]; rfl⟩
    · exact ⟨Nat.lt_succ_of_lt (Nat.lt_add_right _ hi), rfl⟩
  · show Exact.fin (Row.total [(flowVar F ds i j, 1), (i, -.fin (ds[j] : ℚ))] (flowPlan F ds).point) ≤ 0
    rw [Row.total_cons, Row.total_cons, Row.total_nil, Row.termAt, Row.termAt, hvalue, coord_opening hi]
    rw [Exact.zero_def, Exact.one_def, Exact.fin_le, Exact.fin_neg, Exact.toField_fin, Exact.toField_fin]
    linarith

/-- The flow variables of the first `r` facilities. -/
def flows (F : Nat) (ds : List Nat) (r : Nat) : List (List VarId) :=
  (List.range r).map fun i => (List.range ds.length).map (flowVar F ds i)

/-- **All flows**, facility by facility. -/
theorem fills_flows (F : Nat) (ds : List Nat) :
    Fills ((List.range F).zipIdx.mapM fun (y, i) => (demands ds).zipIdx.mapM fun (d, j) => do
      let cost ← draw 1 30
      let x ← (Model.addVar s!"x{i}_{j}" .continuous 0 d cost : ModelM (Exact ℚ) σ VarId)
      linear s!"link{i}_{j}" [(x, 1), (y, -d)] Scalar.negInf 0
      return x)
      (Fits (flowPlan F ds) F 0) fun flow (m : Model (Exact ℚ) σ) =>
        flow = flows F ds F ∧ Fits (flowPlan F ds) (F + F * ds.length) (F * ds.length) m := by
  refine (Fills.mapM (I := fun flow m => flow = flows F ds flow.length ∧
    Fits (flowPlan F ds) (F + flow.length * ds.length) (flow.length * ds.length) m) fun flow hi =>
      .assume fun hflow => ?_).mono (fun m hm => ⟨rfl, ?_⟩) fun flow m ⟨hlength, hflow, hm⟩ => ?_
  · rw [List.length_zipIdx, List.length_range] at hi
    rw [List.getElem_zipIdx, List.getElem_range, Nat.zero_add]
    refine (Fills.mapM (I := fun xs m => xs = (List.range xs.length).map (flowVar F ds flow.length) ∧
      Fits (flowPlan F ds) (F + (flow.length * ds.length + xs.length)) (flow.length * ds.length + xs.length) m)
      fun xs hj => .assume fun hxs => ?_).mono (fun m hm => ⟨rfl, hm⟩) fun xs m ⟨hlength, hxs, hm⟩ => ?_
    · rw [List.length_zipIdx, length_demands] at hj
      rw [List.getElem_zipIdx, Nat.zero_add, getElem_demands hj]
      refine (fills_flow hi hj).mono (fun _ => id) fun x m ⟨hx, hm⟩ => ?_
      rw [List.length_append, List.length_singleton, List.range_succ, List.map_append, ← hxs, hx]
      exact ⟨rfl, hm⟩
    · rw [List.length_zipIdx, length_demands] at hlength
      rw [hlength] at hxs hm
      rw [List.length_append, List.length_singleton, Nat.succ_mul, hxs]
      refine ⟨?_, hm⟩
      unfold flows at hflow ⊢
      rw [List.range_succ, List.map_append, ← hflow]
      rfl
  · rw [List.length_nil, Nat.zero_mul]
    exact hm
  · rw [List.length_zipIdx, List.length_range] at hlength
    rw [hlength] at hflow hm
    exact ⟨hflow, hm⟩

/-- **One demand** is met by all facilities together. -/
theorem fills_demand (hF : 0 < F) (hj : j < ds.length) :
    Fills (linear ("demand" ++ toString j) ((flows F ds F).map fun xs => (xs.getD j 0, 1)) (.fin (ds[j] : ℚ))
        (.fin (ds[j] : ℚ)))
      (Fits (flowPlan F ds) (F + F * ds.length) (F * ds.length + j))
      fun _ (m : Model (Exact ℚ) σ) => Fits (flowPlan F ds) (F + F * ds.length) (F * ds.length + (j + 1)) m := by
  have hrow : (flows F ds F).map (fun xs => (xs.getD j 0, (1 : Exact ℚ))) =
      covers ((List.range F).map fun i => flowVar F ds i j) := by
    unfold flows covers
    rw [List.map_map, List.map_map]
    refine List.map_congr_left fun i _ => ?_
    simp [hj]
  have hvalue : ∀ x ∈ (List.range F).map fun i => flowVar F ds i j, (flowPlan F ds).point.coord x = ds[j] / F := by
    intro x hx
    obtain ⟨i, hi, rfl⟩ := List.mem_map.mp hx
    rw [coord_flowVar (List.mem_range.mp hi) hj, List.getD_eq_getElem _ _ hj]
  have htotal : Row.total (covers ((List.range F).map fun i => flowVar F ds i j)) (flowPlan F ds).point = ds[j] := by
    rw [total_covers, sum_constant hvalue, List.length_map, List.length_range, mul_div_cancel₀]
    exact_mod_cast hF.ne'
  rw [hrow, ← consName_demand (F := F) hj]
  refine fills_linear (fresh_of_injective consName_flowPlan_inj _) (fun c hc => ?_) ?_ ?_ ?_ trivial
  · obtain ⟨hmem, hone⟩ := mem_covers hc
    obtain ⟨i, hi, hvar⟩ := List.mem_map.mp hmem
    exact ⟨hvar ▸ Nat.add_lt_add_left (grid_lt (List.mem_range.mp hi) hj) F, hone ▸ rfl⟩
  · unfold Model.badSides
    rw [Exact.isNaN_fin, decide_eq_false ((Exact.fin_lt ..).not.mpr (lt_irrefl _))]
    rfl
  · rw [htotal]
    exact Exact.le_refl' (Exact.fin_ne_nan _)
  · rw [htotal]
    exact Exact.le_refl' (Exact.fin_ne_nan _)

/-- **One capacity** suffices for an even share of all demands, if there are three facilities. -/
theorem fills_outflow (hF : 3 ≤ F) (hi : i < F) {u : ℚ} (hu : 2 / 5 * wanted ds ≤ u) :
    Fills (linear ("capacity" ++ toString i) (covers ((List.range ds.length).map (flowVar F ds i)) ++ [(i, -.fin u)])
        Scalar.negInf 0)
      (Fits (flowPlan F ds) (F + F * ds.length) ((F + 1) * ds.length + i))
      fun _ (m : Model (Exact ℚ) σ) => Fits (flowPlan F ds) (F + F * ds.length) ((F + 1) * ds.length + (i + 1)) m := by
  have hshare : wanted ds / F ≤ u :=
    calc wanted ds / F ≤ wanted ds / 3 :=
          div_le_div_of_nonneg_left (wanted_nonneg ds) (by norm_num) (by exact_mod_cast hF)
      _ ≤ 2 / 5 * wanted ds := by linarith [wanted_nonneg ds]
      _ ≤ u := hu
  rw [← consName_capacity]
  refine fills_linear (fresh_of_injective consName_flowPlan_inj _) (fun c hc => ?_) rfl trivial ?_
    trivial
  · rcases List.mem_append.mp hc with hc | hc
    · obtain ⟨hmem, hone⟩ := mem_covers hc
      obtain ⟨j, hj, hvar⟩ := List.mem_map.mp hmem
      exact ⟨hvar ▸ Nat.add_lt_add_left (grid_lt hi (List.mem_range.mp hj)) F, hone ▸ rfl⟩
    · obtain rfl := List.mem_singleton.mp hc
      exact ⟨Nat.lt_add_right _ hi, rfl⟩
  · rw [Row.total_append, total_covers, sum_flows hi, Row.total_cons, Row.total_nil, Row.termAt, coord_opening hi,
      Exact.fin_neg, Exact.toField_fin, Exact.zero_def, Exact.fin_le]
    linarith

/-- **The capacities** are at least two fifths of the total demand. -/
theorem fills_capacities (xs : List VarId) (I : Model (Exact ℚ) σ → Prop) :
    Fills (xs.mapM fun _ => return Scalar.ceil (.fin (wanted ds) * (0.4 + 0.4 * (← drawUnit)))) I
      fun us m => us.length = xs.length ∧ (∀ u ∈ us, ∃ q : ℚ, 2 / 5 * wanted ds ≤ q ∧ u = .fin q) ∧ I m := by
  have hshare : (0.4 : Exact ℚ) = .fin (2 / 5) := by
    rw [Exact.scientific_def]
    norm_num
  refine Fills.mapM_each fun _ _ => .bind (fills_drawUnit I) fun t => .assume fun ⟨u, hu, ht⟩ => .pure fun m hm =>
    ⟨⟨⌈wanted ds * (2 / 5 + 2 / 5 * u)⌉, ?_, ?_⟩, hm⟩
  · calc 2 / 5 * wanted ds = wanted ds * (2 / 5) := mul_comm ..
      _ ≤ wanted ds * (2 / 5 + 2 / 5 * u) :=
          mul_le_mul_of_nonneg_left (le_add_of_nonneg_right (by positivity)) (wanted_nonneg ds)
      _ ≤ _ := Int.le_ceil _
  · rw [ht, hshare]
    rfl

/-- **Facility location.** -/
theorem fills_facility (hF : 3 ≤ F) (customers : Nat) (name : String) :
    Fills (facility F customers) (fun m => m = .new name) fun _ (m : Model (Exact ℚ) σ) =>
      ∃ ds : List Nat, Fits (flowPlan F ds) (F + F * ds.length) ((F + 1) * ds.length + F) m := by
  unfold facility
  refine .bind (Fills.mapM_each fun _ _ => fills_draw 5 35 _) fun demand => .assume fun _ => .assume fun hdemand => ?_
  obtain ⟨ds, rfl⟩ := exists_demands hdemand
  dsimp only
  rw [sum_demands]
  refine .bind ((fills_items (P := flowPlan F ds) "y" (fun i hi => if_pos hi)
    (fun i hi => .inr (coord_opening hi)) 100 400).mono (fun m hm => hm ▸ .new _ name) fun _ _ => id)
    fun openings => .assume fun hopenings => ?_
  subst hopenings
  refine .bind (fills_capacities _ _) fun capacity => .assume fun hlength => .assume fun hcapacity => ?_
  rw [List.length_range] at hlength
  refine .bind (fills_flows F ds) fun flow => .assume fun hflow => ?_
  subst hflow
  refine .bind (Fills.forM (I := fun j => Fits _ (F + F * ds.length) (F * ds.length + j)) fun j hj => ?_) fun _ => ?_
  · rw [List.length_zipIdx, length_demands] at hj
    rw [List.getElem_zipIdx, Nat.zero_add, getElem_demands hj]
    exact fills_demand (by omega) hj
  · have hstart : F * ds.length + (demands ds).zipIdx.length = (F + 1) * ds.length + 0 := by
      rw [List.length_zipIdx, length_demands, Nat.succ_mul, Nat.add_zero]
    rw [hstart]
    refine (Fills.forM (I := fun i => Fits _ (F + F * ds.length) ((F + 1) * ds.length + i)) fun i hi => ?_).mono
      (fun _ => id) fun _ m hm => ⟨ds, ?_⟩
    · simp only [List.length_zipIdx, List.length_zip, flows, List.length_map, List.length_range, hlength, min_self]
        at hi
      rw [List.getElem_zipIdx, List.getElem_zip, List.getElem_zip, Nat.zero_add]
      obtain ⟨u, hu, hcap⟩ := hcapacity _ (List.getElem_mem (hlength.symm ▸ hi))
      rw [hcap, List.getElem_range]
      unfold flows
      rw [List.getElem_map, List.getElem_range]
      exact fills_outflow hF hi hu
    · simpa only [List.length_zipIdx, List.length_zip, flows, List.length_map, List.length_range, hlength, min_self]
        using hm

end BranchAndCut.Benchmark

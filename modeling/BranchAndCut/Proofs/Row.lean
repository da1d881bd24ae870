import BranchAndCut.Proofs.Point

/-! # Rows are canonical and mean the sum they were given

A row is made from coefficients in any order, with repetitions. They are sorted, runs of one
variable are added up and zeros are left out; nothing of this changes the sum of the terms.
What is added later goes to the place of its variable, which the search by halving finds since
the order is strict. -/

namespace BranchAndCut.Row

/-! ## Order -/

/-- Every variable at most once, in increasing order. -/
def Ordered {K : Type} (coefs : List (VarId × K)) : Prop := coefs.Pairwise fun c d => c.1 < d.1

section Order

variable {K : Type} [Scalar K] {coefs : List (VarId × K)} {v : VarId} {lo hi fuel : Nat}

omit [Scalar K] in
/-- The halving keeps smaller variables before the stretch and no smaller ones after it. -/
theorem Ordered.placeFrom_splits (h : Ordered coefs) (hle : lo ≤ hi) (hhi : hi ≤ coefs.length)
    (hfuel : hi - lo ≤ fuel) (hbefore : ∀ c ∈ coefs.take lo, c.1 < v) (hafter : ∀ c ∈ coefs.drop hi, v ≤ c.1) :
    (∀ c ∈ coefs.take (placeFrom coefs v lo hi fuel), c.1 < v) ∧
      ∀ c ∈ coefs.drop (placeFrom coefs v lo hi fuel), v ≤ c.1 := by
  fun_induction placeFrom coefs v lo hi fuel with
  | case1 lo hi =>
    obtain rfl : lo = hi := by omega
    exact ⟨hbefore, hafter⟩
  | case2 lo hi fuel hlt mid hless ih =>
    have hmid : mid < coefs.length := by omega
    have hget : coefs[mid]? = some coefs[mid] := List.getElem?_eq_getElem hmid
    rw [hget, Option.any_some, decide_eq_true_eq] at hless
    refine ih (by omega) hhi (by omega) (fun c hc => ?_) hafter
    rw [List.take_succ_eq_append_getElem hmid] at hc
    rcases List.mem_append.mp hc with hc | hc
    · obtain ⟨i, hi, rfl⟩ := List.mem_take_iff_getElem.mp hc
      exact (List.pairwise_iff_getElem.mp h i mid (by omega) hmid (by omega)).trans hless
    · exact List.mem_singleton.mp hc ▸ hless
  | case3 lo hi fuel hlt mid hless ih =>
    have hmid : mid < coefs.length := by omega
    have hget : coefs[mid]? = some coefs[mid] := List.getElem?_eq_getElem hmid
    rw [hget, Option.any_some, decide_eq_true_eq, not_lt] at hless
    refine ih (by omega) (by omega) (by omega) hbefore fun c hc => ?_
    rw [List.drop_eq_getElem_cons hmid] at hc
    rcases List.mem_cons.mp hc with rfl | hc
    · exact hless
    · obtain ⟨i, hi, rfl⟩ := List.mem_drop_iff_getElem.mp hc
      exact hless.trans (List.pairwise_iff_getElem.mp h mid _ hmid (by omega) (by omega)).le
  | case4 lo hi fuel hlt =>
    obtain rfl : lo = hi := by omega
    exact ⟨hbefore, hafter⟩

omit [Scalar K] in
theorem Ordered.place_splits (h : Ordered coefs) (v : VarId) :
    (∀ c ∈ coefs.take (place coefs v), c.1 < v) ∧ ∀ c ∈ coefs.drop (place coefs v), v ≤ c.1 :=
  h.placeFrom_splits (Nat.zero_le _) (Nat.le_refl _) (Nat.sub_le _ _) nofun (by simp)

omit [Scalar K] in
/-- **The search finds the entry of a variable** if there is one. -/
theorem Ordered.find?_eq_some_iff (h : Ordered coefs) {a : K} : find? coefs v = some a ↔ (v, a) ∈ coefs := by
  refine ⟨fun hfind => List.mem_of_getElem? (find?_some hfind), fun hmem => ?_⟩
  obtain ⟨hbefore, hafter⟩ := h.place_splits v
  obtain ⟨i, hi, hget⟩ := List.mem_iff_getElem.mp hmem
  -- smaller variables stand before the place, so that the entry is the first one from there on
  have hplace : place coefs v = i := by
    refine Nat.le_antisymm (not_lt.mp fun hlt => ?_) (not_lt.mp fun hlt => ?_)
    · have hless := hbefore _ (List.mem_take_iff_getElem.mpr ⟨i, by omega, rfl⟩)
      rw [hget] at hless
      exact lt_irrefl _ hless
    · have hless := List.pairwise_iff_getElem.mp h (place coefs v) i (by omega) hi hlt
      have hge := hafter _ (List.mem_drop_iff_getElem.mpr ⟨0, by omega, rfl⟩)
      rw [hget] at hless
      exact absurd hge (not_le.mpr hless)
  unfold find?
  rw [hplace, List.getElem?_eq_getElem hi, hget]
  exact if_pos rfl

/-- What is added to a coefficient goes between smaller variables and greater ones. -/
theorem Ordered.addTo_eq (h : Ordered coefs) (v : VarId) (delta : K) :
    ∃ before old after a, coefs = before ++ old ++ after ∧ addTo v delta coefs = before ++ entry v a ++ after ∧
      (∀ c ∈ before, c.1 < v) ∧ (∀ c ∈ after, v < c.1) ∧
      (old = [] ∧ find? coefs v = none ∧ a = delta ∨
        ∃ b, old = [(v, b)] ∧ find? coefs v = some b ∧ a = b + delta) := by
  obtain ⟨old, a, hold, after, hcoefs, heq⟩ := Row.addTo_eq v delta coefs
  obtain ⟨hbefore, hfrom⟩ := h.place_splits v
  refine ⟨_, old, after, a, hcoefs, heq, hbefore, fun c hc => ?_, hold⟩
  have hmem : c ∈ coefs := hcoefs ▸ List.mem_append_right _ hc
  rcases hold with ⟨rfl, hnone, -⟩ | ⟨b, rfl, -, -⟩
  · have hdrop : coefs.drop (place coefs v) = after := by
      have := List.take_append_drop (place coefs v) coefs
      conv at this => rhs; rw [hcoefs, List.append_nil]
      exact List.append_cancel_left this
    refine lt_of_le_of_ne (hfrom c (hdrop ▸ hc)) fun hvar => ?_
    have hfind : find? coefs v = some c.2 := h.find?_eq_some_iff.mpr (hvar ▸ hmem)
    rw [hnone] at hfind
    cases hfind
  · unfold Ordered at h
    rw [hcoefs, List.append_assoc] at h
    exact (List.pairwise_cons.mp (List.pairwise_append.mp h).2.1).1 c hc

theorem Ordered.addTo (h : Ordered coefs) (v : VarId) (delta : K) : Ordered (addTo v delta coefs) := by
  obtain ⟨before, old, after, a, hcoefs, heq, hbefore, hafter, -⟩ := h.addTo_eq v delta
  unfold Ordered at h ⊢
  rw [hcoefs, List.append_assoc] at h
  obtain ⟨hfirst, hrest, hcross⟩ := List.pairwise_append.mp h
  rw [heq, List.append_assoc]
  refine List.pairwise_append.mpr ⟨hfirst, List.pairwise_append.mpr ⟨?_, (List.pairwise_append.mp hrest).2.1, ?_⟩, ?_⟩
  · unfold entry
    split
    · exact .nil
    · exact List.pairwise_singleton _ _
  · intro c hc d hd
    rw [mem_entry hc]
    exact hafter d hd
  · intro c hc d hd
    rcases List.mem_append.mp hd with hd | hd
    · rw [mem_entry hd]
      exact hbefore c hc
    · exact hcross c hc d (List.mem_append_right _ hd)

theorem mergeRuns_ordered {a : K} {rest : List (VarId × K)} (h : rest.Pairwise fun c d => c.1 ≤ d.1)
    (hv : ∀ c ∈ rest, v ≤ c.1) : Ordered (mergeRuns.go v a rest) ∧ ∀ c ∈ mergeRuns.go v a rest, v ≤ c.1 := by
  induction rest generalizing v a with
  | nil => exact ⟨List.pairwise_singleton _ _, List.forall_mem_singleton.mpr (Nat.le_refl v)⟩
  | cons entry rest ih =>
    obtain ⟨w, b⟩ := entry
    obtain ⟨hw, hrest⟩ := List.pairwise_cons.mp h
    obtain ⟨hvw, hv⟩ := List.forall_mem_cons.mp hv
    unfold mergeRuns.go
    split
    · exact ih hrest hv
    · next hne =>
      obtain ⟨hordered, hge⟩ := ih (a := b) hrest hw
      have hlt : v < w := lt_of_le_of_ne hvw hne
      exact ⟨List.pairwise_cons.mpr ⟨fun c hc => hlt.trans_le (hge c hc), hordered⟩,
        List.forall_mem_cons.mpr ⟨Nat.le_refl v, fun c hc => hlt.le.trans (hge c hc)⟩⟩

/-- **New rows are in order.** -/
theorem canonical_ordered (coefs : List (VarId × K)) : Ordered (canonical coefs) := by
  have hsorted : (coefs.mergeSort fun p q => decide (p.1 ≤ q.1)).Pairwise fun c d => c.1 ≤ d.1 := by
    refine (List.pairwise_mergeSort (fun a b c hab hbc => ?_) (fun a b => ?_) coefs).imp of_decide_eq_true
    · exact decide_eq_true ((of_decide_eq_true hab).trans (of_decide_eq_true hbc))
    · simpa using Nat.le_total a.1 b.1
  unfold canonical
  refine List.Pairwise.filter _ ?_
  generalize coefs.mergeSort _ = sorted at hsorted
  cases sorted with
  | nil => exact .nil
  | cons c rest =>
    obtain ⟨hc, hrest⟩ := List.pairwise_cons.mp hsorted
    exact (mergeRuns_ordered hrest hc).1

omit [Scalar K] in
/-- The entries of a variable: the one that the search finds, or none. -/
theorem Ordered.filter_eq (h : Ordered coefs) (v : VarId) :
    coefs.filter (fun c => c.1 = v) = (find? coefs v).toList.map (v, ·) := by
  have hordered : (coefs.filter fun c => c.1 = v).Pairwise fun c d => c.1 < d.1 := h.filter _
  have hmem : ∀ c, c ∈ coefs.filter (fun c => c.1 = v) ↔ c.1 = v ∧ find? coefs v = some c.2 := fun c => by
    rw [List.mem_filter, decide_eq_true_eq, h.find?_eq_some_iff, and_comm]
    exact and_congr_right fun hc => by rw [← hc]
  generalize coefs.filter (fun c => c.1 = v) = l at hordered hmem
  match l with
  | [] =>
    cases hfind : find? coefs v with
    | none => rfl
    | some a => exact absurd ((hmem (v, a)).mpr ⟨rfl, hfind⟩) nofun
  | [c] =>
    obtain ⟨hvar, hfind⟩ := (hmem c).mp (List.mem_singleton_self c)
    rw [hfind, ← hvar]
    rfl
  | c :: d :: l =>
    have hlt := (List.pairwise_cons.mp hordered).1 d (by simp)
    rw [((hmem c).mp (by simp)).1, ((hmem d).mp (by simp)).1] at hlt
    exact absurd hlt (Nat.lt_irrefl v)

end Order

/-! ## Sums -/

variable [Rooted ℚ] {p : Point}

/-- The sum of the terms at a point. -/
def total (coefs : List (VarId × Exact ℚ)) (p : Point) : ℚ := (coefs.map (termAt p)).sum

omit [Rooted ℚ] in
@[simp] theorem total_nil : total [] p = 0 := rfl

omit [Rooted ℚ] in
@[simp] theorem total_cons (c : VarId × Exact ℚ) (coefs : List (VarId × Exact ℚ)) :
    total (c :: coefs) p = termAt p c + total coefs p := List.sum_cons

omit [Rooted ℚ] in
theorem total_perm {coefs coefs' : List (VarId × Exact ℚ)} (h : coefs.Perm coefs') : total coefs p = total coefs' p :=
  (h.map _).sum_eq

theorem mergeRuns_finite {v : VarId} {a : Exact ℚ} {rest : List (VarId × Exact ℚ)} (ha : Scalar.isFinite a = true)
    (hrest : ∀ c ∈ rest, Scalar.isFinite c.2 = true) : ∀ c ∈ mergeRuns.go v a rest, Scalar.isFinite c.2 = true := by
  induction rest generalizing v a with
  | nil => exact List.forall_mem_singleton.mpr ha
  | cons entry rest ih =>
    obtain ⟨w, b⟩ := entry
    obtain ⟨hb, hrest⟩ := List.forall_mem_cons.mp hrest
    unfold mergeRuns.go
    split
    · refine ih ?_ hrest
      obtain ⟨x, rfl⟩ := Exact.isFinite_iff.mp ha
      obtain ⟨y, rfl⟩ := Exact.isFinite_iff.mp hb
      rfl
    · exact List.forall_mem_cons.mpr ⟨ha, ih hb hrest⟩

/-- **A row of finite coefficients is proper.** -/
theorem of_proper {coefs : List (VarId × Exact ℚ)} (h : ∀ c ∈ coefs, Scalar.isFinite c.2 = true) (lhs rhs : Exact ℚ) :
    (Row.of coefs lhs rhs).Proper := by
  intro c hc
  obtain ⟨hmem, hne⟩ := List.mem_filter.mp hc
  have hsorted : ∀ c ∈ coefs.mergeSort fun p q => decide (p.1 ≤ q.1), Scalar.isFinite c.2 = true :=
    fun c hc => h c (List.mem_mergeSort.mp hc)
  have hfinite : Scalar.isFinite c.2 = true := by
    generalize coefs.mergeSort _ = sorted at hmem hsorted
    cases sorted with
    | nil => cases hmem
    | cons entry rest =>
      obtain ⟨hfirst, hrest⟩ := List.forall_mem_cons.mp hsorted
      exact mergeRuns_finite hfirst hrest c hmem
  obtain ⟨a, ha⟩ := Exact.isFinite_iff.mp hfinite
  refine ⟨a, fun hzero => ?_, ha⟩
  change (c.2 != 0) = true at hne
  rw [ha, Exact.zero_def, Exact.fin_bne] at hne
  exact of_decide_eq_true hne hzero

theorem total_mergeRuns_go {v : VarId} {a : Exact ℚ} {rest : List (VarId × Exact ℚ)} (ha : Scalar.isFinite a = true)
    (hrest : ∀ c ∈ rest, Scalar.isFinite c.2 = true) :
    total (mergeRuns.go v a rest) p = termAt p (v, a) + total rest p := by
  induction rest generalizing v a with
  | nil => rfl
  | cons entry rest ih =>
    obtain ⟨w, b⟩ := entry
    obtain ⟨hb, htail⟩ := List.forall_mem_cons.mp hrest
    unfold mergeRuns.go
    split
    · next hvw =>
      obtain ⟨x, rfl⟩ := Exact.isFinite_iff.mp ha
      obtain ⟨y, rfl⟩ := Exact.isFinite_iff.mp hb
      rw [Exact.fin_add, ih (Exact.isFinite_fin _) htail, total_cons, hvw]
      simp only [termAt, Exact.toField_fin]
      ring
    · rw [total_cons, ih hb htail, total_cons]

theorem total_mergeRuns {coefs : List (VarId × Exact ℚ)} (h : ∀ c ∈ coefs, Scalar.isFinite c.2 = true) :
    total (mergeRuns coefs) p = total coefs p := by
  cases coefs with
  | nil => rfl
  | cons entry rest =>
    obtain ⟨ha, hrest⟩ := List.forall_mem_cons.mp h
    rw [total_cons]
    exact total_mergeRuns_go ha hrest

/-- Zeros contribute nothing. -/
theorem total_filter (coefs : List (VarId × Exact ℚ)) : total (coefs.filter fun c => c.2 != 0) p = total coefs p := by
  induction coefs with
  | nil => rfl
  | cons c coefs ih =>
    by_cases hzero : (c.2 != 0) = true
    · rw [List.filter_cons, if_pos hzero, total_cons, ih, total_cons]
    · have ha : c.2 = .fin 0 := by
        cases hc : c.2 with
        | fin a => simpa [hc, Exact.zero_def] using hzero
        | _ => exact (hzero (by rw [hc]; rfl)).elim
      rw [List.filter_cons, if_neg hzero, ih, total_cons, termAt, ha, Exact.toField_fin, zero_mul, zero_add]

theorem total_canonical {coefs : List (VarId × Exact ℚ)} (h : ∀ c ∈ coefs, Scalar.isFinite c.2 = true) (p : Point) :
    total (canonical coefs) p = total coefs p := by
  have hsorted : ∀ c ∈ coefs.mergeSort fun p q => decide (p.1 ≤ q.1), Scalar.isFinite c.2 = true :=
    fun c hc => h c (List.mem_mergeSort.mp hc)
  calc total (canonical coefs) p
      = total (mergeRuns (coefs.mergeSort fun p q => decide (p.1 ≤ q.1))) p := total_filter _
    _ = total (coefs.mergeSort fun p q => decide (p.1 ≤ q.1)) p := total_mergeRuns hsorted
    _ = total coefs p := total_perm (List.mergeSort_perm _ _)

/-- **A row has the activity of the coefficients that it was made from.** -/
theorem activity_of {coefs : List (VarId × Exact ℚ)} (h : ∀ c ∈ coefs, Scalar.isFinite c.2 = true)
    (lhs rhs : Exact ℚ) (p : Point) : (Row.of coefs lhs rhs).activity p.vector = .fin (total coefs p) := by
  rw [activity_eq (of_proper h lhs rhs).finite]
  exact congrArg Exact.fin (total_canonical h p)

/-! ## Additions -/

omit [Rooted ℚ] in
theorem total_append (coefs coefs' : List (VarId × Exact ℚ)) (p : Point) :
    total (coefs ++ coefs') p = total coefs p + total coefs' p := by
  unfold total
  rw [List.map_append, List.sum_append]

theorem total_entry (v : VarId) (a : ℚ) (p : Point) : total (entry v (.fin a)) p = a * p.coord v := by
  unfold entry
  split
  · next hzero =>
    have ha : a = 0 := by simpa [Exact.zero_def] using hzero
    rw [total_nil, ha, zero_mul]
  · rw [total_cons, total_nil, add_zero, termAt, Exact.toField_fin]

theorem addCoef_proper {r : Row (Exact ℚ)} (h : r.Proper) (v : VarId) (delta : ℚ) :
    (r.addCoef v (.fin delta)).Proper := by
  obtain ⟨old, a, hold, after, hcoefs, heq⟩ := addTo_eq v (.fin delta) r.coefs
  obtain ⟨q, rfl⟩ : ∃ q, a = .fin q := by
    rcases hold with ⟨-, -, rfl⟩ | ⟨b, rfl, -, rfl⟩
    · exact ⟨delta, rfl⟩
    · obtain ⟨q, -, hq⟩ := h (v, b) (by rw [hcoefs]; simp)
      exact ⟨q + delta, by rw [show b = .fin q from hq, Exact.fin_add]⟩
  intro c hc
  change c ∈ addTo v (.fin delta) r.coefs at hc
  rw [heq, List.append_assoc] at hc
  rcases List.mem_append.mp hc with hc | hc
  · exact h c (List.mem_of_mem_take hc)
  rcases List.mem_append.mp hc with hc | hc
  · obtain rfl := mem_entry hc
    refine ⟨q, fun hzero => ?_, rfl⟩
    subst hzero
    simp [entry, Exact.zero_def] at hc
  · exact h c (hcoefs ▸ List.mem_append_right _ hc)

/-- An addition to a coefficient counts once, wherever the entry stands. -/
theorem total_addTo {coefs : List (VarId × Exact ℚ)} (h : ∀ c ∈ coefs, Scalar.isFinite c.2 = true) (v : VarId)
    (delta : ℚ) (p : Point) : total (addTo v (.fin delta) coefs) p = total coefs p + delta * p.coord v := by
  obtain ⟨old, a, hold, after, hcoefs, heq⟩ := addTo_eq v (.fin delta) coefs
  have hentry : total (entry v a) p = total old p + delta * p.coord v := by
    rcases hold with ⟨rfl, -, rfl⟩ | ⟨b, rfl, -, rfl⟩
    · rw [total_entry, total_nil, zero_add]
    · obtain ⟨q, rfl⟩ := Exact.isFinite_iff.mp (h (v, b) (by rw [hcoefs]; simp))
      rw [Exact.fin_add, total_entry, total_cons, total_nil, termAt, Exact.toField_fin, add_zero, add_mul]
  calc total (addTo v (.fin delta) coefs) p
      = total (coefs.take (place coefs v) ++ entry v a ++ after) p := by rw [heq]
    _ = total (coefs.take (place coefs v) ++ old ++ after) p + delta * p.coord v := by
        simp only [total_append, hentry]
        ring
    _ = total coefs p + delta * p.coord v := by rw [← hcoefs]

/-! ## Coefficients as activities -/

/-- The point with one variable at one and all others at zero. -/
def unitPoint (v : VarId) : Point := Array.ofFn fun i : Fin (v + 1) => if i = v then 1 else 0

omit [Rooted ℚ] in
theorem coord_unitPoint (v w : VarId) : (unitPoint v).coord w = if w = v then 1 else 0 := by
  unfold unitPoint Point.coord
  by_cases h : w < v + 1
  · simp [h]
  · have hne : w ≠ v := fun heq => h (heq ▸ Nat.lt_succ_self w)
    simp [h, hne]

omit [Rooted ℚ] in
/-- At the unit point of a variable, a sum of terms is that of the values for the variable. -/
theorem sum_unitPoint {α : Type} (key : α → VarId) (value : α → ℚ) (l : List α) (v : VarId) :
    (l.map fun c => value c * (unitPoint v).coord (key c)).sum = ((l.filter fun c => key c = v).map value).sum := by
  induction l with
  | nil => rfl
  | cons c l ih =>
    rw [List.map_cons, List.sum_cons, ih, coord_unitPoint]
    by_cases h : key c = v <;> simp [h]

/-- The coefficient of a variable is the activity at its unit point. -/
theorem Ordered.coef_eq {r : Row (Exact ℚ)} (h : Ordered r.coefs) (hproper : r.Proper) (v : VarId) :
    r.coef v = .fin (total r.coefs (unitPoint v)) := by
  have hfinite : ∀ a, find? r.coefs v = some a → a = .fin a.toField := fun a ha => by
    obtain ⟨q, -, hq⟩ := hproper (v, a) (h.find?_eq_some_iff.mp ha)
    rw [show a = .fin q from hq, Exact.toField_fin]
  have htotal : total r.coefs (unitPoint v) = ((r.coefs.filter fun c => c.1 = v).map fun c => c.2.toField).sum :=
    sum_unitPoint Prod.fst (fun c : VarId × Exact ℚ => c.2.toField) r.coefs v
  unfold coef
  rw [htotal, h.filter_eq]
  cases hfind : find? r.coefs v with
  | none => rfl
  | some a => simpa using hfinite a hfind

/-! ## Rows over their life -/

/-- The row made from the coefficients `given`, after the additions `later`. -/
def added (given later : List (VarId × ℚ)) (lhs rhs : Exact ℚ) : Row (Exact ℚ) :=
  later.foldl (fun r c => r.addCoef c.1 (.fin c.2)) (Row.of (given.map fun c => (c.1, .fin c.2)) lhs rhs)

/-- The row is in canonical form, and its terms sum up to those of a list at every point. -/
structure Sums (r : Row (Exact ℚ)) (given : List (VarId × ℚ)) : Prop where
  ordered : Ordered r.coefs
  proper : r.Proper
  total : ∀ p, total r.coefs p = (given.map fun c => c.2 * p.coord c.1).sum

theorem sums_of (given : List (VarId × ℚ)) (lhs rhs : Exact ℚ) :
    (Row.of (given.map fun c => (c.1, .fin c.2)) lhs rhs).Sums given := by
  have hfinite : ∀ c ∈ given.map fun c => (c.1, (.fin c.2 : Exact ℚ)), Scalar.isFinite c.2 = true := fun c hc => by
    obtain ⟨d, -, rfl⟩ := List.mem_map.mp hc
    rfl
  refine ⟨canonical_ordered _, of_proper hfinite lhs rhs, fun p => ?_⟩
  calc Row.total (canonical _) p
      = Row.total (given.map fun c => (c.1, .fin c.2)) p := total_canonical hfinite p
    _ = (given.map fun c => c.2 * p.coord c.1).sum := by unfold Row.total; rw [List.map_map]; rfl

/-- **One addition.** -/
theorem Sums.addCoef {r : Row (Exact ℚ)} {given : List (VarId × ℚ)} (h : r.Sums given) (c : VarId × ℚ) :
    (r.addCoef c.1 (.fin c.2)).Sums (given ++ [c]) where
  ordered := h.ordered.addTo c.1 _
  proper := addCoef_proper h.proper c.1 c.2
  total p := by
    rw [List.map_append, List.sum_append, ← h.total, List.map_singleton, List.sum_singleton]
    exact total_addTo h.proper.finite c.1 c.2 p

/-- **Any number of additions.** -/
theorem Sums.foldl {r : Row (Exact ℚ)} {given : List (VarId × ℚ)} (h : r.Sums given) (later : List (VarId × ℚ)) :
    (later.foldl (fun r c => r.addCoef c.1 (.fin c.2)) r).Sums (given ++ later) := by
  induction later generalizing r given with
  | nil => rwa [List.append_nil]
  | cons c later ih =>
    have hstep := ih (h.addCoef c)
    rwa [List.append_assoc, List.singleton_append] at hstep

theorem Sums.coef {r : Row (Exact ℚ)} {given : List (VarId × ℚ)} (h : r.Sums given) (v : VarId) :
    r.coef v = .fin ((given.filter fun c => c.1 = v).map Prod.snd).sum := by
  rw [h.ordered.coef_eq h.proper, h.total]
  exact congrArg Exact.fin (sum_unitPoint Prod.fst Prod.snd given v)

/-- **Rows are canonical and mean the sum they were given**, whatever was given and added: each
variable with a nonzero coefficient has one entry, which the search finds, with the sum of all
values for it; and the activity is the sum of all terms at every point. -/
theorem added_canonical (given later : List (VarId × ℚ)) (lhs rhs : Exact ℚ) :
    Ordered (added given later lhs rhs).coefs ∧ (added given later lhs rhs).Proper ∧
      (∀ v a, find? (added given later lhs rhs).coefs v = some a ↔ (v, a) ∈ (added given later lhs rhs).coefs) ∧
      (∀ v, (added given later lhs rhs).coef v =
        .fin (((given ++ later).filter fun c => c.1 = v).map Prod.snd).sum) ∧
      ∀ p : Point, (added given later lhs rhs).activity p.vector =
        .fin ((given ++ later).map fun c => c.2 * p.coord c.1).sum := by
  have h : (added given later lhs rhs).Sums (given ++ later) := (sums_of given lhs rhs).foldl later
  refine ⟨h.ordered, h.proper, fun v a => h.ordered.find?_eq_some_iff, h.coef, fun p => ?_⟩
  rw [activity_eq h.proper.finite]
  exact congrArg Exact.fin (h.total p)

end BranchAndCut.Row

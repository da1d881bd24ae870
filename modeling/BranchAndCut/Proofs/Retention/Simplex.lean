import BranchAndCut.Proofs.Linear.Products
import BranchAndCut.Proofs.Lp.Certificate
import BranchAndCut.Proofs.Relaxation.Numbers
import BranchAndCut.Proofs.Retention.Honesty

/-! # The simplex oracle is honest

With a dual tolerance of zero the simplex oracle answers honestly: the program it solves is the
relaxation it holds, and the verdicts of the simplex method are certified. After an optimal
answer the rows of the tableau are told as they are, except that small coefficients are left
out. So the built-in separator is trusted where there are none. -/

namespace BranchAndCut

variable [Rooted ℚ]

/-! ## Sums over ranges -/

omit [Rooted ℚ] in
theorem sum_filterMap_range {α : Type} (g : Nat → Option α) (k : α → ℚ) (n : Nat) :
    (((List.range n).filterMap g).map k).sum = ∑ j ∈ Finset.range n, (g j).elim 0 k := by
  induction n with
  | zero => rfl
  | succ n ih =>
    rw [List.range_succ, List.filterMap_append, List.map_append, List.sum_append, ih, Finset.sum_range_succ]
    congr 1
    cases hg : g n with
    | none => simp [hg]
    | some a => simp [hg]

/-- A stored row has the coefficients of the row. -/
theorem Matrix.storedIn_total {coefs : List (Nat × Exact ℚ)} (h : ∀ e ∈ coefs, Scalar.isFinite e.2 = true) (j : Nat) :
    ((storedIn coefs j).map Exact.toField).getD 0 = total coefs j := by
  have hmap : (coefs.filter fun e => e.1 == j && e.2 != 0).map Prod.snd =
      ((coefs.filter fun e => e.1 == j && e.2 != 0).map fun e => e.2.toField).map Exact.fin := by
    rw [List.map_map]
    exact List.map_congr_left fun e he => (Exact.fin_toField (h e (List.mem_filter.mp he).1)).symm
  have hsum : ((coefs.filter fun e => e.1 == j && e.2 != 0).map fun e => e.2.toField).sum = total coefs j := by
    clear hmap
    induction coefs with
    | nil => rfl
    | cons e coefs ih =>
      obtain ⟨he, hcoefs⟩ := List.forall_mem_cons.mp h
      obtain ⟨a, ha⟩ := Exact.isFinite_iff.mp he
      obtain ⟨k, v⟩ := e
      obtain rfl : v = .fin a := ha
      rw [total_cons, ← ih hcoefs, List.filter_cons]
      by_cases hk : j = k
      · subst hk
        by_cases hzero : a = 0
        · simp [hzero, Exact.zero_def]
        · simp [hzero, Exact.zero_def]
      · simp [hk, Ne.symm hk]
  unfold storedIn
  rw [hmap, sumOf_fin, ← hsum]
  split
  · next hnil => rw [hnil]; rfl
  · rfl

/-- A program with a feasible point has its bounds in order. -/
theorem Lp.Problem.Feasible.ordered {p : Lp.Problem (Exact ℚ)} {x : Nat → ℚ} (h : p.Feasible x) : p.Ordered where
  cols j hj := Exact.le_trans' (h.cols j hj).1 (h.cols j hj).2
  rows i hi := Exact.le_trans' (h.rows i hi).1 (h.rows i hi).2

namespace KeyedSimplex

variable {o u : KeyedSimplex (Exact ℚ)} {c : Contents (Exact ℚ)} {y : Point} {i : Nat} {key : RowKey} {r : Row (Exact ℚ)}

/-! ## The program is the relaxation -/

theorem Consistent.apply_eq (h : o.Consistent) (hrow : o.rows[i]? = some (key, r)) (hr : r.Finite) (y : Point) :
    o.program.a.apply y.coord i = Row.total r.coefs y := by
  have hstored : Matrix.Stored o.numCols r.coefs := fun e he =>
    ⟨h.inRange key r (h.aligned.row?_eq_some hrow) e he, (Exact.fin_toField (hr e he)).symm⟩
  have hvalue : ∀ j, o.program.a.value i j * y.coord j = y.coord j * Matrix.total r.coefs j := fun j => by
    rw [Matrix.value_of_stored h.program.ascending, h.stored_eq hrow, Matrix.storedIn_total hr, mul_comm]
  show ∑ j ∈ Finset.range o.numCols, o.program.a.value i j * y.coord j = (r.coefs.map (Row.termAt y)).sum
  rw [Finset.sum_congr rfl fun j _ => hvalue j, Matrix.sum_total hstored]
  exact congrArg List.sum (List.map_congr_left fun e _ => mul_comm _ _)

/-- The side and the activity of a row. -/
theorem Consistent.row_eq (h : o.Consistent) (hrow : o.rows[i]? = some (key, r)) (hr : r.Finite) :
    o.program.rowLower.getD i 0 = r.lhs ∧ o.program.rowUpper.getD i 0 = r.rhs ∧
      ∀ y : Point, r.activity y.vector = .fin (o.program.a.apply y.coord i) := by
  obtain ⟨hlt, hget⟩ := Array.getElem?_eq_some_iff.mp hrow
  refine ⟨?_, ?_, fun y => ?_⟩
  · show (o.rows.map fun (_, row) => row.lhs).getD i 0 = r.lhs
    simp [hlt, hget]
  · show (o.rows.map fun (_, row) => row.rhs).getD i 0 = r.rhs
    simp [hlt, hget]
  · rw [h.apply_eq hrow hr]
    exact Row.activity_eq hr y

/-- A point that fulfils the relaxation is feasible in the program. -/
theorem Consistent.feasible (h : o.Consistent) (hc : o.Holds c) (hrows : o.RowsAll Row.Finite)
    (hy : c.Fulfils o.lower o.upper y) : o.program.Feasible y.coord where
  cols j hj := hy.bounds j (hc.numCols ▸ hj)
  rows i hi := by
    rw [program_numRows] at hi
    obtain ⟨⟨key, r⟩, hrow⟩ : ∃ entry, o.rows[i]? = some entry := ⟨_, Array.getElem?_eq_getElem hi⟩
    have hmem : (key, r) ∈ o.rows := Array.mem_of_getElem? hrow
    obtain ⟨hlower, hupper, hactivity⟩ := h.row_eq hrow (hrows _ hmem)
    have hholds := hy.rows key r (hc.mem_rows.mp hmem)
    rwa [Row.Holds, hactivity, ← hlower, ← hupper] at hholds

/-- The value of a point is what the program charges for it. -/
theorem Holds.value_eq (h : o.Holds c) (hcost : ∀ a ∈ o.cost, Scalar.isFinite a = true) (hy : y.size = o.numCols) :
    c.value y = .fin (o.program.objectiveAt y.coord) := by
  have hvector : y.vector.toList = y.toList.map Exact.fin := Array.toList_map
  have hterms : List.zipWith (fun a b => a.toField * b) c.costs y.toList =
      ((List.range o.numCols).filterMap some).map fun j => o.program.costOf j * y.coord j := by
    rw [List.filterMap_some, ← h.costs]
    refine List.ext_getElem ?_ fun j hj _ => ?_
    · have hcosts : o.cost.size = o.numCols := rfl
      simp [hy, hcosts]
    · obtain ⟨hcosts, hcoords⟩ : j < o.cost.size ∧ j < y.size := by simpa using hj
      simp [Lp.Problem.costOf, program, Point.coord, hcosts, hcoords]
  unfold Contents.value
  rw [hvector, Problem.zipWith_fin (h.costs ▸ fun a ha => hcost a (Array.mem_toList_iff.mp ha)), sum_fin, hterms,
    sum_filterMap_range]
  rfl

/-! ## A solve -/

/-- The solver of the last solve stands at a basis, and its values solve the rows. -/
def Settled (o : KeyedSimplex (Exact ℚ)) : Prop := ∃ (s : Lp.Simplex (Exact ℚ)) (t : Tableau (Exact ℚ)),
  o.last = some (s, o.rows.map Prod.fst) ∧ o.program.Valid ∧ s.Of o.program ∧ s.Based o.program t ∧
    s.Placed o.program t ∧ t.Solves o.program.width s.val

omit [Rooted ℚ] in
theorem statusOf_optimal {status : Lp.Status} (h : statusOf status = .optimal) : status = .optimal := by
  cases status with
  | optimal => rfl
  | _ => cases h

omit [Rooted ℚ] in
theorem statusOf_infeasible {status : Lp.Status} (h : statusOf status = .infeasible) : status = .infeasible := by
  cases status with
  | infeasible => rfl
  | _ => cases h

/-- A least solution of the program is a point of least value. -/
theorem Holds.least (h : o.Holds c) (hv : o.program.Valid) {sol : Lp.Solution (Exact ℚ)} (hsol : sol.Describes o.program)
    (hobjective : sol.objective = Scalar.sum (o.cost.toList.zipWith (· * ·) sol.x.toList))
    (hleast : ∀ x, o.program.Feasible x → o.program.objectiveAt sol.point ≤ o.program.objectiveAt x)
    (hfeasible : ∀ z, c.Fulfils o.lower o.upper z → o.program.Feasible z.coord) :
    ∃ y : Point, sol.x = y.vector ∧ sol.objective = c.value y ∧
      ∀ z, c.Fulfils o.lower o.upper z → c.value y ≤ c.value z := by
  have hsize : (sol.x.map Exact.toField).size = o.numCols := Array.size_map.trans hsol.x_size
  have hx : sol.x = Point.vector (sol.x.map Exact.toField) := by
    refine Array.ext (by simp [Point.vector]) fun j hj _ => ?_
    have hfin := hsol.x j (hsol.x_size ▸ hj)
    have hget : sol.x.getD j 0 = sol.x[j] := by simp [hj]
    rw [hget] at hfin
    simp [Point.vector, hfin]
  have hcoord : o.program.objectiveAt (Point.coord (sol.x.map Exact.toField)) = o.program.objectiveAt sol.point := by
    refine Finset.sum_congr rfl fun j hj => ?_
    have hlt : j < sol.x.size := hsol.x_size.symm ▸ Finset.mem_range.mp hj
    simp [Point.coord, Lp.Solution.point, hlt]
  refine ⟨sol.x.map Exact.toField, hx, ?_, fun z hz => ?_⟩
  · unfold Contents.value
    rw [← hx, hobjective, h.costs]
  · rw [h.value_eq hv.cost hsize, h.value_eq hv.cost (hz.size.trans h.numCols.symm), Exact.fin_le, hcoord]
    exact hleast _ (hfeasible z hz)

/-- **The answer of a solve is honest** if the dual tolerance is zero. -/
theorem Consistent.solve_truthful (h : o.Consistent) (hc : o.Holds c) {primal pivot : ℚ}
    (htol : o.settings.Tolerances primal 0 pivot) :
    Ensures solve o (fun r u => u.Consistent ∧ u.Holds c ∧ u.settings = o.settings ∧ u.lower = o.lower ∧
      u.upper = o.upper ∧ (r.status = .optimal → u.Settled) ∧ c.Truthful o.lower o.upper r) fun _ _ => True := by
  unfold solve
  refine .bind (.get ?_)
  split
  · exact .throw trivial
  · next s hnew =>
    have hwf := h.program.wellFormed
    obtain ⟨hv, hof, hset⟩ := Lp.Simplex.new_of hwf hnew
    have hfeasible := fun z hz => h.feasible hc (h.valid_iff.mp hv).1.rows (y := z) hz
    obtain ⟨status, effort, hsol, hof', hset', hshows⟩ :=
      Lp.Simplex.solve_after hv hwf hof hset htol (o.warm.map o.basisOf)
    dsimp only
    rw [hsol]
    generalize (s.solve (o.warm.map o.basisOf)).2 = s' at hof' hset' hshows
    refine .bind (.set (.pure ⟨h.of_eq rfl rfl rfl, hc.of_eq rfl rfl rfl, rfl, rfl, rfl, fun hstatus => ?_,
      fun hstatus z hz => ?_, fun hstatus => ?_⟩))
    · obtain rfl : status = .optimal := statusOf_optimal hstatus
      obtain ⟨t, hb, hp, hshow⟩ := hshows (.inl rfl)
      exact ⟨s', t, rfl, hv, hof', hb, hp, hshow.1⟩
    · obtain rfl : status = .infeasible := statusOf_infeasible hstatus
      obtain ⟨t, hb, hp, hshow⟩ := hshows (.inr (.inl rfl))
      exact (Lp.Simplex.refutes_of_shows hv hof' hb hp hwf hset' htol hshow effort).exact_empty rfl _ (hfeasible z hz)
    · obtain rfl : status = .optimal := statusOf_optimal hstatus
      obtain ⟨t, hb, hp, hshow⟩ := hshows (.inl rfl)
      refine hc.least hv (Lp.Simplex.describes hv hwf hof' hp .optimal effort) ?_ (fun x hx => ?_) hfeasible
      · show Scalar.sum (s'.problem.cost.toList.zipWith (· * ·) _) = _
        rw [hof'.problem]
        rfl
      · exact (Lp.Simplex.optimal_of_shows hv hof' hb hp hwf hx.ordered hset' htol hshow effort).exact_minimal rfl x hx

/-! ## The tableau -/

/-- The column at a position of the tableau. -/
def columnAt (numCols : Nat) (keys : Array RowKey) (j : Nat) : LpColumn :=
  if j < numCols then .var j else .slack (keys.getD (j - numCols) (.cut 0))

/-- The entry of a row of the tableau at a position, unless it is left out. -/
def entryAt? (numCols : Nat) (s : Lp.Simplex (Exact ℚ)) (keys : Array RowKey) (row : Array (Exact ℚ)) (j : Nat) :
    Option (TableauEntry (Exact ℚ)) :=
  if s.statusOf j != .basic && decide (1e-12 < Scalar.abs (row.getD j 0)) then
    some { col := columnAt numCols keys j, coef := row.getD j 0, status := s.statusOf j, value := s.valueOf j }
  else none

/-- No coefficient of the tableau is so small that it is left out. -/
def ToldInFull (o : KeyedSimplex (Exact ℚ)) : Prop := ∀ last ∈ o.last, ∀ t ∈ last.1.tableau, ∀ row ∈ t.rows.toList,
  ∀ a ∈ row.toList, a = 0 ∨ 1e-12 < Scalar.abs a

instance : DecidablePred ToldInFull := fun o => inferInstanceAs (Decidable (∀ last ∈ o.last, ∀ t ∈ last.1.tableau,
  ∀ row ∈ t.rows.toList, ∀ a ∈ row.toList, a = 0 ∨ 1e-12 < Scalar.abs a))

section Entries

variable {n j : Nat} {s : Lp.Simplex (Exact ℚ)} {keys : Array RowKey} {row : Array (Exact ℚ)} {e : TableauEntry (Exact ℚ)}

theorem entriesOf_eq (n : Nat) (s : Lp.Simplex (Exact ℚ)) (keys : Array RowKey) (row : Array (Exact ℚ)) :
    entriesOf n s keys row = (List.range row.size).filterMap (entryAt? n s keys row) := by
  have hzip : row.toList.zipIdx = (List.range row.size).map fun j => (row.getD j 0, j) := by
    refine List.ext_getElem (by simp) fun j hj _ => ?_
    have hlt : j < row.size := by simpa using hj
    simp [hlt]
  unfold entriesOf
  rw [hzip, List.filterMap_map]
  rfl

theorem entryAt?_eq_some (h : entryAt? n s keys row j = some e) : s.statusOf j ≠ .basic ∧
    e = { col := columnAt n keys j, coef := row.getD j 0, status := s.statusOf j, value := s.valueOf j } := by
  unfold entryAt? at h
  split at h
  · next hcond =>
    exact ⟨by simpa using (Bool.and_eq_true_iff.mp hcond).1, (Option.some.inj h).symm⟩
  · cases h

/-- What the entries of a row sum up to if none is left out. -/
theorem sum_entriesOf {a z : Nat → ℚ} (hrow : ∀ j, row.getD j 0 = .fin (a j))
    (htold : ∀ j < row.size, a j = 0 ∨ 1e-12 < Scalar.abs (row.getD j 0)) {f : TableauEntry (Exact ℚ) → Exact ℚ}
    (hf : ∀ j < row.size, ∀ e, entryAt? n s keys row j = some e → f e = .fin (z j)) :
    Scalar.sum ((entriesOf n s keys row).map fun e => e.coef * f e) =
      .fin (∑ j ∈ (Finset.range row.size).filter fun j => s.statusOf j ≠ .basic, a j * z j) := by
  have hterm : ∀ j < row.size, ∀ e, entryAt? n s keys row j = some e → e.coef * f e = .fin (a j * z j) := by
    intro j hj e he
    rw [hf j hj e he, (entryAt?_eq_some he).2, hrow, Exact.fin_mul]
  rw [entriesOf_eq, sum_map_fin (g := fun e => (e.coef * f e).toField), sum_filterMap_range, Finset.sum_filter]
  · congr 1
    refine Finset.sum_congr rfl fun j hj => ?_
    have hlt := Finset.mem_range.mp hj
    cases he : entryAt? n s keys row j with
    | some e =>
      rw [if_pos (entryAt?_eq_some he).1, Option.elim_some, hterm j hlt e he, Exact.toField_fin]
    | none =>
      rw [Option.elim_none]
      split
      · next hbasic =>
        rcases htold j hlt with hzero | hlarge
        · rw [hzero, zero_mul]
        · unfold entryAt? at he
          rw [if_pos (Bool.and_eq_true_iff.mpr ⟨by simpa using hbasic, decide_eq_true hlarge⟩)] at he
          cases he
      · rfl
  · intro e he
    obtain ⟨j, hj, he⟩ := List.mem_filterMap.mp he
    rw [hterm j (List.mem_range.mp hj) e he, Exact.toField_fin]

end Entries

/-- The columns of the tableau are those of the relaxation, with its bounds. -/
theorem Consistent.columnAt_spec (h : o.Consistent) (hc : o.Holds c) (hv : o.program.Valid) {j : Nat}
    (hj : j < o.program.width) :
    (columnAt o.numCols (o.rows.map Prod.fst) j).Exists c.row o.numCols ∧
    (∀ y, (columnAt o.numCols (o.rows.map Prod.fst) j).valueAt c.row y = .fin (o.program.extend y.coord j)) ∧
    (columnAt o.numCols (o.rows.map Prod.fst) j).boundOf c.row o.lower o.upper .atLower = o.program.lowerOf j ∧
    (columnAt o.numCols (o.rows.map Prod.fst) j).boundOf c.row o.lower o.upper .atUpper = o.program.upperOf j := by
  have hlower : o.lower.size = o.numCols := hv.colLower
  have hupper : o.upper.size = o.numCols := hv.colUpper
  have hbounds : o.program.lowerOf j = (if j < o.numCols then o.lower.getD j 0
      else o.program.rowLower.getD (j - o.numCols) 0) ∧
      o.program.upperOf j = if j < o.numCols then o.upper.getD j 0 else o.program.rowUpper.getD (j - o.numCols) 0 := by
    unfold Lp.Problem.lowerOf Lp.Problem.upperOf
    rw [getD_append, getD_append, hv.colLower, hv.colUpper]
    exact ⟨rfl, rfl⟩
  have hextend : ∀ y : Point, o.program.extend y.coord j =
      if j < o.numCols then y.coord j else o.program.a.apply y.coord (j - o.numCols) := fun y => rfl
  rw [hbounds.1, hbounds.2]
  simp only [hextend]
  unfold columnAt
  split
  · next hlt => exact ⟨hlt, fun y => rfl, rfl, rfl⟩
  · next hge =>
    have hpos : j - o.numCols < o.rows.size := by
      have hwidth : j < o.numCols + o.program.numRows := hj
      rw [program_numRows] at hwidth
      show _ < o.numRows
      omega
    obtain ⟨⟨key, r⟩, hrow⟩ : ∃ entry, o.rows[j - o.numCols]? = some entry := ⟨_, Array.getElem?_eq_getElem hpos⟩
    have hmem : (key, r) ∈ o.rows := Array.mem_of_getElem? hrow
    have hr : r.Finite := (h.valid_iff.mp hv).1.rows _ hmem
    have hkey : (o.rows.map Prod.fst).getD (j - o.numCols) (.cut 0) = key := by
      rw [Array.getD_eq_getD_getElem?, Array.getElem?_map, hrow]
      rfl
    have hsome : c.row key = some r := hc.mem_rows.mp hmem
    obtain ⟨hlhs, hrhs, hactivity⟩ := h.row_eq hrow hr
    rw [hkey, hlhs, hrhs]
    refine ⟨⟨r, hsome, fun e he => ⟨h.inRange key r (h.aligned.row?_eq_some hrow) e he, hr e he⟩⟩, fun y => ?_, ?_, ?_⟩
    · rw [LpColumn.valueAt, hsome, ← hactivity y]
    · rw [LpColumn.boundOf, hsome, Option.elim_some]
    · rw [LpColumn.boundOf, hsome, Option.elim_some]

/-- A row of the tableau, with the entries that are told. -/
def rowAt (o : KeyedSimplex (Exact ℚ)) (s : Lp.Simplex (Exact ℚ)) (t : Tableau (Exact ℚ)) (i : Nat) :
    TableauRow (Exact ℚ) where
  basic := t.basicColumn i
  value := s.valueOf (t.basicColumn i)
  entries := entriesOf o.numCols s (o.rows.map Prod.fst) (t.rows.getD i #[])

section Rows

variable {s : Lp.Simplex (Exact ℚ)} {t : Tableau (Exact ℚ)} {vars : List VarId} {rows : List (TableauRow (Exact ℚ))}
  {row : TableauRow (Exact ℚ)} (hlast : o.last = some (s, o.rows.map Prod.fst)) (hof : s.Of o.program)
  (hb : s.Based o.program t)

include hlast hof hb

theorem mem_tableauRows (hrows : o.tableauRows vars = .ok rows) (hrow : row ∈ rows) : ∃ i < t.rows.size,
    t.basicColumn i < o.numCols ∧ t.basicColumn i ∈ vars ∧ row = o.rowAt s t i := by
  unfold tableauRows at hrows
  rw [hlast] at hrows
  dsimp only at hrows
  rw [hb.tableau] at hrows
  obtain rfl := Except.ok.inj hrows
  obtain ⟨⟨b, i⟩, hzip, hsome⟩ := List.mem_filterMap.mp hrow
  rw [Tableau.basis_eq_map hb.derived.head, List.mem_zipIdx_iff_getElem?, List.getElem?_map] at hzip
  obtain ⟨k, hk, rfl⟩ := Option.map_eq_some_iff.mp hzip
  obtain ⟨hi, rfl⟩ : i < t.rows.size ∧ i = k := by
    obtain ⟨hi, hget⟩ := List.getElem?_eq_some_iff.mp hk
    exact ⟨by simpa using hi, by simpa using hget⟩
  obtain ⟨hcond, heq⟩ := Option.ite_none_right_eq_some.mp hsome
  obtain ⟨hlt, hvars⟩ := Bool.and_eq_true_iff.mp hcond
  have hcols : s.numCols = o.numCols := hof.numCols
  exact ⟨i, hi, hcols ▸ of_decide_eq_true hlt, by simpa using hvars, (Option.some.inj heq).symm⟩

omit hof in
/-- The equation of a row of the tableau holds for what solves the tableau, if no entry is left out. -/
theorem balanced_rowAt (htold : o.ToldInFull) (hi : i < t.rows.size) {z : Nat → ℚ} (hz : t.Solves o.program.width z)
    {f : TableauEntry (Exact ℚ) → Exact ℚ} (hf : ∀ j < o.program.width, ∀ e,
      entryAt? o.numCols s (o.rows.map Prod.fst) (t.rows.getD i #[]) j = some e → f e = .fin (z j)) :
    (o.rowAt s t i).Balanced (.fin (z (t.basicColumn i))) f := by
  have hwidth := hb.derived.numeric.width i hi
  have hsmall : ∀ j < (t.rows.getD i #[]).size, t.entry i j = 0 ∨ 1e-12 < Scalar.abs ((t.rows.getD i #[]).getD j 0) := by
    intro j hj
    have hmem : t.rows.getD i #[] ∈ t.rows.toList := by simp [hi]
    have hcoef : ∀ row : Array (Exact ℚ), j < row.size → row.getD j 0 ∈ row.toList := fun row hj => by simp [hj]
    refine (htold _ hlast t hb.tableau _ hmem _ (hcoef _ hj)).imp_left fun hzero => ?_
    rw [hb.derived.numeric.row_getD, Exact.zero_def] at hzero
    exact Exact.fin.inj hzero
  have hsum : Scalar.sum ((o.rowAt s t i).entries.map fun e => e.coef * f e) =
      .fin (∑ j ∈ (Finset.range (t.rows.getD i #[]).size).filter fun j => s.statusOf j ≠ .basic, t.entry i j * z j) :=
    sum_entriesOf (hb.derived.numeric.row_getD i) hsmall fun j hj => hf j (hwidth ▸ hj)
  have hrow := hz i hi
  rw [hb.derived.sum_row hb.complete hi] at hrow
  have hnonbasic : ((Finset.range (t.rows.getD i #[]).size).filter fun j => s.statusOf j ≠ .basic) =
      t.nonbasic o.program.width := by
    rw [hwidth]
    refine Finset.filter_congr fun j hj => ?_
    rw [Ne, ← hb.inBasis_iff (Finset.mem_range.mp hj)]
  unfold TableauRow.Balanced
  rw [hsum, hnonbasic, Exact.fin_add, hrow, Exact.zero_def]

end Rows

/-- **The rows of the tableau are told as they are** after an optimal answer, if no entry is left out. -/
theorem Settled.right (hs : o.Settled) (h : o.Consistent) (hc : o.Holds c) (htold : o.ToldInFull) {vars : List VarId}
    {rows : List (TableauRow (Exact ℚ))} (hrows : o.tableauRows vars = .ok rows) :
    ∀ row ∈ rows, row.Right c.row o.lower o.upper o.numCols vars := by
  obtain ⟨s, t, hlast, hv, hof, hb, hp, hsolves⟩ := hs
  intro row hrow
  obtain ⟨i, hi, hlt, hvars, rfl⟩ := mem_tableauRows hlast hof hb hrows hrow
  have hwidth := hb.derived.numeric.width i hi
  have hentry : ∀ e ∈ (o.rowAt s t i).entries, ∃ j < o.program.width, s.statusOf j ≠ .basic ∧
      e.col = columnAt o.numCols (o.rows.map Prod.fst) j ∧ e.status = s.statusOf j ∧ e.value = s.valueOf j := by
    intro e he
    change e ∈ entriesOf _ _ _ _ at he
    rw [entriesOf_eq] at he
    obtain ⟨j, hj, he⟩ := List.mem_filterMap.mp he
    obtain ⟨hbasic, rfl⟩ := entryAt?_eq_some he
    exact ⟨j, hwidth ▸ List.mem_range.mp hj, hbasic, rfl, rfl, rfl⟩
  have hval := hp.finite _ (hb.derived.basic_lt hb.complete hi)
  refine ⟨hvars, fun e he => ?_, fun e he => ?_, ?_, fun y hy => ?_⟩
  · obtain ⟨j, hj, -, hcol, -⟩ := hentry e he
    rw [hcol]
    exact (h.columnAt_spec hc hv hj).1
  · obtain ⟨j, hj, hbasic, hcol, hstatus, hvalue⟩ := hentry e he
    have hnonbasic : ¬ t.InBasis j := fun hin => hbasic ((hb.inBasis_iff hj).mp hin)
    obtain ⟨-, -, hlower, hupper⟩ := h.columnAt_spec hc hv hj
    rw [hvalue, hp.nonbasic j hj hnonbasic, hcol, hstatus]
    unfold Lp.Simplex.nonbasicValue
    rw [hof.lowerOf, hof.upperOf]
    cases hst : s.statusOf j with
    | basic => exact (hbasic hst).elim
    | atLower => exact hlower.symm
    | atUpper => exact hupper.symm
    | atZero => cases columnAt o.numCols (o.rows.map Prod.fst) j <;> rfl
  · show (o.rowAt s t i).Balanced (s.valueOf (t.basicColumn i)) _
    rw [hval]
    refine balanced_rowAt hlast hb htold hi hsolves fun j hj e he => ?_
    rw [(entryAt?_eq_some he).2]
    exact hp.finite j hj
  · have hpoint : t.Solves o.program.width (o.program.extend y.coord) :=
      (Lp.Simplex.solves_iff hv h.program.wellFormed hof hb _).mpr fun j _ =>
        (Lp.Simplex.extend_extend hv y.coord j).symm
    have hbasic : o.program.extend y.coord (t.basicColumn i) = y.coord (t.basicColumn i) := if_pos hlt
    have hbalanced := balanced_rowAt hlast hb htold hi hpoint (f := fun e => e.col.valueAt c.row y)
      fun j hj e he => by
        rw [(entryAt?_eq_some he).2]
        exact (h.columnAt_spec hc hv hj).2.1 y
    rwa [hbasic] at hbalanced

/-! ## Honesty -/

/-- What a search knows of the oracle between two calls. -/
structure Serves (o : KeyedSimplex (Exact ℚ)) (st : Lp.Settings (Exact ℚ)) (c : Contents (Exact ℚ)) : Prop where
  holds : o.Holds c
  consistent : o.Consistent
  settings : o.settings = st

section Serves

variable {st : Lp.Settings (Exact ℚ)}

omit [Rooted ℚ] in
theorem Serves.empty (st : Lp.Settings (Exact ℚ)) : Serves { settings := st } st {} := ⟨.empty st, .new st, rfl⟩

omit [Rooted ℚ] in
/-- The oracle with other bounds or bases. -/
theorem Serves.of_eq (h : o.Serves st c) {u : KeyedSimplex (Exact ℚ)} (hcost : u.cost = o.cost) (hrows : u.rows = o.rows)
    (hpositions : u.positions = o.positions) (hsettings : u.settings = o.settings) : u.Serves st c :=
  ⟨h.holds.of_eq hcost hrows hpositions, h.consistent.of_eq (congrArg Array.size hcost.symm) hrows hpositions,
    hsettings.trans h.settings⟩

theorem Serves.addColumns (h : o.Serves st c) (cols : List (NewColumn (Exact ℚ))) :
    Ensures (oracle.addColumns cols) o (fun _ u => u.Serves st (c.addColumns cols)) fun _ _ => True := by
  refine ((h.holds.addColumns cols).and ((h.consistent.run (.addColumns cols)).and (addColumns_outcome o cols))).mono
    ?_ fun _ _ _ => trivial
  rintro _ u ⟨hholds, hconsistent, rfl, -⟩
  have hsettings : (cols.foldl KeyedSimplex.pushColumn o).settings = o.settings :=
    foldl_keeps (·.settings) (fun o col => congrArg (·.settings) (rowless_pushColumn o col)) o cols
  exact ⟨hholds, hconsistent, hsettings.trans h.settings⟩

theorem Serves.addRows (h : o.Serves st c) (rows : List (RowKey × Row (Exact ℚ))) :
    Ensures (oracle.addRows rows) o (fun _ u => u.Serves st (c.addRows rows)) fun _ _ => True := by
  refine ((h.holds.addRows rows).and ((h.consistent.run (.addRows rows)).and (addRows_outcome o rows))).mono
    ?_ fun _ _ _ => trivial
  rintro _ u ⟨hholds, hconsistent, rfl, -⟩
  have hsettings : (rows.foldl KeyedSimplex.putRow o).settings = o.settings :=
    foldl_keeps (·.settings) (fun o entry => congrArg (·.settings) (rowless_putRow o entry)) o rows
  exact ⟨hholds, hconsistent, hsettings.trans h.settings⟩

theorem Serves.removeRows (h : o.Serves st c) (keys : List RowKey) :
    Ensures (oracle.removeRows keys) o (fun _ u => u.Serves st (c.removeRows keys)) fun _ _ => True := by
  have hsettings : (keys.foldl KeyedSimplex.removeRow o).settings = o.settings :=
    foldl_keeps (·.settings) (fun o key => congrArg (·.settings) (rowless_removeRow o key)) o keys
  exact .modify ⟨h.holds.removeRows keys, (h.consistent.run (.removeRows keys)).returns rfl, hsettings.trans h.settings⟩

end Serves

/-- **The simplex oracle is honest** with a dual tolerance of zero, and so is the built-in
separator where it is told the tableau in full. -/
def honest (settings : Settings (Exact ℚ)) (steps : Nat) {primal pivot : ℚ}
    (htol : settings.relaxation.Tolerances primal 0 pivot) (m : Model (Exact ℚ) (KeyedSimplex (Exact ℚ))) :
    Honest (Solver.guarded { Solver.plain settings with steps } ToldInFull) m where
  Holds o c := o.Serves settings.relaxation c
  Ready o c lower upper := o.Serves settings.relaxation c ∧ o.lower = lower ∧ o.upper = upper
  Solved o c lower upper r := o.lower = lower ∧ o.upper = upper ∧ (r.status = .optimal → o.Settled)
  holds h := h.1
  addColumns h cols := h.addColumns cols
  addRows h rows := h.addRows rows
  removeRows h keys := h.removeRows keys
  setBounds {o c} h lower upper := by
    refine (setBounds_outcome o lower upper).mono ?_ fun _ _ _ => trivial
    rintro _ u ⟨rfl, -⟩
    exact ⟨h.of_eq rfl rfl rfl rfl, rfl, rfl⟩
  solve {o c lower upper} h := by
    obtain ⟨hserves, rfl, rfl⟩ := h
    refine (hserves.consistent.solve_truthful hserves.holds (hserves.settings ▸ htol)).mono ?_ fun _ _ _ => trivial
    rintro r u ⟨hconsistent, hholds, hsettings, hlower, hupper, hsettled, htruthful⟩
    exact ⟨⟨⟨hholds, hconsistent, hsettings.trans hserves.settings⟩, hlower, hupper⟩, ⟨hlower, hupper, hsettled⟩, htruthful⟩
  restoreBasis h basis := h.of_eq rfl rfl rfl rfl
  clearBasis h := ⟨h.1.of_eq rfl rfl rfl rfl, h.2⟩
  separate _ _ _ _ := nofun
  gomory {o c r p} h hsolved hstatus _ := by
    obtain ⟨hlower, hupper, hsettled⟩ := hsolved
    refine .inl ⟨h.holds.row?_eq, fun vars rows hrows => ?_⟩
    change (if o.ToldInFull then o.tableauRows vars else throw .outOfSteps) = .ok rows at hrows
    split at hrows
    · next htold =>
      rw [← hlower, ← hupper, ← h.holds.numCols]
      exact (hsettled hstatus).right h.consistent h.holds htold hrows
    · cases hrows
  find _ := nofun
  score _ := nofun

end KeyedSimplex

end BranchAndCut

import BranchAndCut.Proofs.Lp.Installation
import BranchAndCut.Proofs.Relaxation.Growth
import BranchAndCut.Proofs.Relaxation.History

/-! # The numbers of a relaxation

In exact numbers the program of an oracle is accepted exactly if the costs and the
coefficients are finite and no bounds are infinite towards the inside. -/

namespace BranchAndCut

variable [Rooted ℚ]

/-! ## Sums -/

theorem Matrix.isFinite_sumOf {vs : List (Exact ℚ)} {v : Exact ℚ} (h : sumOf vs = some v) :
    Scalar.isFinite v = true ↔ ∀ w ∈ vs, Scalar.isFinite w = true := by
  induction vs using List.reverseRecOn generalizing v with
  | nil => cases h
  | append_singleton vs w ih =>
    rw [sumOf_concat] at h
    obtain rfl := Option.some.inj h
    rw [List.forall_mem_append, List.forall_mem_singleton]
    cases hsum : sumOf vs with
    | none =>
      have hnil : vs = [] := by
        cases vs with
        | nil => rfl
        | cons x xs => cases hsum
      subst hnil
      simp
    | some x =>
      rw [← ih hsum]
      dsimp only
      refine ⟨Exact.isFinite_of_add, fun ⟨hx, hw⟩ => ?_⟩
      obtain ⟨a, rfl⟩ := Exact.isFinite_iff.mp hx
      obtain ⟨b, rfl⟩ := Exact.isFinite_iff.mp hw
      rfl

/-- All coefficients are finite. -/
def Row.Finite (r : Row (Exact ℚ)) : Prop := ∀ e ∈ r.coefs, Scalar.isFinite e.2 = true

instance : DecidablePred Row.Finite := fun r => inferInstanceAs (Decidable (∀ e ∈ r.coefs, Scalar.isFinite e.2 = true))

theorem Row.Finite.addCoef {r : Row (Exact ℚ)} (h : r.Finite) (v : VarId) {a : Exact ℚ} (ha : Scalar.isFinite a = true) :
    (r.addCoef v a).Finite := by
  obtain ⟨old, b, hold, after, hcoefs, heq⟩ := Row.addTo_eq v a r.coefs
  have hkept : ∀ e ∈ old ++ after, Scalar.isFinite e.2 = true := fun e he =>
    h e (by rw [hcoefs, List.append_assoc]; exact List.mem_append_right _ he)
  have hb : Scalar.isFinite b = true := by
    rcases hold with ⟨-, -, rfl⟩ | ⟨c, rfl, -, rfl⟩
    · exact ha
    · obtain ⟨x, hx⟩ := Exact.isFinite_iff.mp (hkept (v, c) List.mem_cons_self)
      obtain ⟨y, rfl⟩ := Exact.isFinite_iff.mp ha
      dsimp only at hx
      rw [hx, Exact.fin_add, Exact.isFinite_fin]
  intro e he
  change e ∈ Row.addTo v a r.coefs at he
  rw [heq] at he
  rcases List.mem_append.mp he with he | hafter
  · rcases List.mem_append.mp he with hbefore | hnew
    · exact h e (List.mem_of_mem_take hbefore)
    · rw [Row.mem_entry hnew]
      exact hb
  · exact hkept e (List.mem_append_right _ hafter)

/-- The sides are not infinite towards the inside. -/
def Row.Sided (r : Row (Exact ℚ)) : Prop := Lp.Problem.badBounds (r.lhs, r.rhs) = false

instance : DecidablePred Row.Sided := fun r => inferInstanceAs (Decidable (Lp.Problem.badBounds (r.lhs, r.rhs) = false))

namespace KeyedSimplex

variable {o u : KeyedSimplex (Exact ℚ)}

/-- Costs and coefficients are finite, and every column has bounds. -/
structure Numeric (o : KeyedSimplex (Exact ℚ)) : Prop where
  cost : ∀ v ∈ o.cost, Scalar.isFinite v = true
  rows : o.RowsAll Row.Finite
  lower : o.lower.size = o.numCols
  upper : o.upper.size = o.numCols

/-- No bounds are infinite towards the inside. -/
structure Bounded (o : KeyedSimplex (Exact ℚ)) : Prop where
  sizes : o.lower.size = o.upper.size
  rows : o.RowsAll Row.Sided
  cols : ∀ b ∈ o.lower.toList.zip o.upper.toList, Lp.Problem.badBounds b = false

/-! ## The program -/

theorem program_numRows (o : KeyedSimplex (Exact ℚ)) : o.program.numRows = o.numRows := Array.size_map

theorem program_a_numRows (o : KeyedSimplex (Exact ℚ)) : o.program.a.numRows = o.numRows := by
  show (o.rows.toList.map _).length = _
  rw [List.length_map]
  rfl

theorem Consistent.stored_eq (h : o.Consistent) {i : Nat} {entry : RowKey × Row (Exact ℚ)}
    (hrow : o.rows[i]? = some entry) (j : Nat) : o.program.a.stored i j = Matrix.storedIn entry.2.coefs j := by
  rw [h.program.stored, List.getElem?_map, Array.getElem?_toList, hrow]
  rfl

/-- The matrix stores finite numbers if the coefficients are finite, and only then. -/
theorem Consistent.stored_iff (h : o.Consistent) :
    (∀ vec ∈ o.program.a.vectors, Matrix.Stored o.program.a.numRows vec) ↔ o.RowsAll Row.Finite := by
  constructor
  · intro hstored entry hentry e he
    obtain ⟨i, hi⟩ := Array.mem_iff_getElem?.mp hentry
    by_cases hzero : (e.2 != 0) = true
    · have hmem : e.2 ∈ (entry.2.coefs.filter fun x => x.1 == e.1 && x.2 != 0).map Prod.snd :=
        List.mem_map_of_mem (List.mem_filter.mpr ⟨he, by simp [hzero]⟩)
      obtain ⟨v, hv⟩ : ∃ v, Matrix.storedIn entry.2.coefs e.1 = some v := by
        unfold Matrix.storedIn
        generalize (entry.2.coefs.filter fun x => x.1 == e.1 && x.2 != 0).map Prod.snd = vs at hmem
        cases vs with
        | nil => cases hmem
        | cons w ws => exact ⟨_, rfl⟩
      obtain ⟨vec, hvec, hin⟩ := Matrix.mem_of_stored ((h.stored_eq hi e.1).trans hv)
      have hfin : Scalar.isFinite v = true := Exact.isFinite_iff.mpr ⟨_, (hstored vec hvec _ hin).2⟩
      exact (Matrix.isFinite_sumOf hv).mp hfin e.2 hmem
    · generalize e.2 = v at hzero
      cases v with
      | fin a => rfl
      | nan | negInf | posInf => exact (hzero rfl).elim
  · intro hfinite vec hvec e he
    have hlt := h.program.wellFormed.inner vec hvec e he
    refine ⟨hlt, (Exact.fin_toField ?_).symm⟩
    obtain ⟨j, hj, rfl⟩ := Array.mem_iff_getElem.mp hvec
    rw [program_a_numRows] at hlt
    have hrow : o.rows[e.1]? = some o.rows[e.1] := Array.getElem?_eq_getElem hlt
    have hsum := (h.stored_eq hrow j).symm.trans (Matrix.stored_of_mem h.program.ascending hj he)
    refine (Matrix.isFinite_sumOf hsum).mpr fun v hv => ?_
    obtain ⟨x, hx, rfl⟩ := List.mem_map.mp hv
    exact hfinite _ (Array.getElem_mem hlt) x (List.mem_filter.mp hx).1

/-- **The program is accepted** if its numbers are meant, and only then. -/
theorem Consistent.valid_iff (h : o.Consistent) : o.program.Valid ↔ o.Numeric ∧ o.Bounded := by
  have hpairs : o.program.boundPairs =
      o.rows.toList.map (fun entry => (entry.2.lhs, entry.2.rhs)) ++ o.lower.toList.zip o.upper.toList := by
    unfold Lp.Problem.boundPairs KeyedSimplex.program
    rw [Array.toList_map, Array.toList_map, List.zip_map']
  constructor
  · intro hv
    refine ⟨⟨hv.cost, h.stored_iff.mp hv.stored, hv.colLower, hv.colUpper⟩,
      hv.colLower.trans hv.colUpper.symm, fun entry hentry => ?_, fun b hb => ?_⟩
    · refine hv.bounds _ ?_
      rw [hpairs]
      exact List.mem_append_left _ (List.mem_map_of_mem (f := fun entry => (entry.2.lhs, entry.2.rhs))
        (Array.mem_toList_iff.mpr hentry))
    · refine hv.bounds b ?_
      rw [hpairs]
      exact List.mem_append_right _ hb
  · rintro ⟨hnumeric, hbounded⟩
    refine ⟨o.program_a_numRows.trans o.program_numRows.symm, rfl, rfl, ?_, hnumeric.lower, hnumeric.upper,
      hnumeric.cost, h.stored_iff.mpr hnumeric.rows, fun b hb => ?_⟩
    · exact Array.size_map.trans o.program_numRows.symm
    · rw [hpairs] at hb
      rcases List.mem_append.mp hb with hb | hb
      · obtain ⟨entry, hentry, rfl⟩ := List.mem_map.mp hb
        exact hbounded.rows entry (Array.mem_toList_iff.mp hentry)
      · exact hbounded.cols b hb

/-! ## What calls keep -/

theorem Numeric.pushColumn (h : o.Numeric) {col : NewColumn (Exact ℚ)} (hcost : Scalar.isFinite col.cost = true)
    (hentries : ∀ e ∈ col.entries, Scalar.isFinite e.2 = true) : (o.pushColumn col).Numeric where
  cost v hv := by
    rw [pushColumn_cost, Array.mem_push] at hv
    exact hv.elim (h.cost v) fun heq => heq ▸ hcost
  rows := h.rows.pushColumn fun e he r hr => hr.addCoef col.var (hentries e he)
  lower := by rw [numCols_pushColumn, pushColumn_lower, Array.size_push, h.lower]
  upper := by rw [numCols_pushColumn, pushColumn_upper, Array.size_push, h.upper]

theorem Numeric.putRow (h : o.Numeric) {entry : RowKey × Row (Exact ℚ)} (hentry : entry.2.Finite) :
    (o.putRow entry).Numeric where
  cost := putRow_cost entry o ▸ h.cost
  rows := h.rows.putRow hentry
  lower := by rw [numCols_putRow, putRow_lower, h.lower]
  upper := by rw [numCols_putRow, putRow_upper, h.upper]

theorem Bounded.pushColumn (h : o.Bounded) (col : NewColumn (Exact ℚ)) : (o.pushColumn col).Bounded where
  sizes := by rw [pushColumn_lower, pushColumn_upper, Array.size_push, Array.size_push, h.sizes]
  rows := h.rows.pushColumn fun _ _ _ hr => hr
  cols b hb := by
    have hlength : o.lower.toList.length = o.upper.toList.length := by
      rw [Array.length_toList, Array.length_toList, h.sizes]
    rw [pushColumn_lower, pushColumn_upper, Array.toList_push, Array.toList_push, List.zip_append hlength] at hb
    rcases List.mem_append.mp hb with hb | hb
    · exact h.cols b hb
    · rw [List.mem_singleton.mp hb]
      rfl

theorem Bounded.putRow (h : o.Bounded) {entry : RowKey × Row (Exact ℚ)} (hentry : entry.2.Sided) :
    (o.putRow entry).Bounded where
  sizes := by rw [putRow_lower, putRow_upper, h.sizes]
  rows := h.rows.putRow hentry
  cols := by
    rw [putRow_lower, putRow_upper]
    exact h.cols

/-- The costs and coefficients that a call brings are finite. -/
def Call.Numeric : Call (Exact ℚ) → Prop
  | .addColumns cols => ∀ col ∈ cols, Scalar.isFinite col.cost = true ∧ ∀ e ∈ col.entries, Scalar.isFinite e.2 = true
  | .addRows rows => ∀ entry ∈ rows, entry.2.Finite
  | .removeRows _ | .setBounds _ _ | .restoreBasis _ | .clearBasis | .solve => True

instance : DecidablePred Call.Numeric
  | .addColumns cols => inferInstanceAs (Decidable (∀ col ∈ cols, Scalar.isFinite col.cost = true ∧
      ∀ e ∈ col.entries, Scalar.isFinite e.2 = true))
  | .addRows rows => inferInstanceAs (Decidable (∀ entry ∈ rows, entry.2.Finite))
  | .removeRows _ | .setBounds _ _ | .restoreBasis _ | .clearBasis | .solve => inferInstanceAs (Decidable True)

/-- The bounds that a call brings are not infinite towards the inside. -/
def Call.Bounded : Call (Exact ℚ) → Prop
  | .addRows rows => ∀ entry ∈ rows, entry.2.Sided
  | .setBounds lower upper => ∀ b ∈ lower.toList.zip upper.toList, Lp.Problem.badBounds b = false
  | .addColumns _ | .removeRows _ | .restoreBasis _ | .clearBasis | .solve => True

instance : DecidablePred Call.Bounded
  | .addRows rows => inferInstanceAs (Decidable (∀ entry ∈ rows, entry.2.Sided))
  | .setBounds lower upper =>
    inferInstanceAs (Decidable (∀ b ∈ lower.toList.zip upper.toList, Lp.Problem.badBounds b = false))
  | .addColumns _ | .removeRows _ | .restoreBasis _ | .clearBasis | .solve => inferInstanceAs (Decidable True)

theorem Numeric.run (h : o.Numeric) {call : Call (Exact ℚ)} (hadds : call.Adds) (hcall : call.Numeric) :
    Ensures call.run o (fun _ u => u.Numeric) fun _ u => u.Numeric := by
  refine hadds.keeps (fun u hu => ⟨hu.cost, hu.rows, hu.lower, hu.upper⟩) ?_ ?_ ?_ h
  · rintro cols rfl col hcol u hu -
    exact hu.pushColumn (hcall col hcol).1 (hcall col hcol).2
  · rintro rows rfl entry hentry u hu -
    exact hu.putRow (hcall entry hentry)
  · exact fun lower upper _ u hu hlower hupper => ⟨hu.cost, hu.rows, hlower, hupper⟩

theorem Bounded.run (h : o.Bounded) {call : Call (Exact ℚ)} (hadds : call.Adds) (hcall : call.Bounded) :
    Ensures call.run o (fun _ u => u.Bounded) fun _ u => u.Bounded := by
  refine hadds.keeps (fun u hu => ⟨hu.sizes, hu.rows, hu.cols⟩) ?_ ?_ ?_ h
  · exact fun cols _ col _ u hu _ => hu.pushColumn col
  · rintro rows rfl entry hentry u hu -
    exact hu.putRow (hcall entry hentry)
  · rintro lower upper rfl u hu hlower hupper
    exact ⟨hlower.trans hupper.symm, hu.rows, hcall⟩

end KeyedSimplex

end BranchAndCut

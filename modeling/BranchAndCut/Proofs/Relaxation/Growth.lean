import BranchAndCut.Proofs.Linear.Triplets
import BranchAndCut.Proofs.Relaxation.Calls

/-! # Growing relaxations

Columns and rows are added at the end: rows that were there keep their positions, and their
coefficients in the columns that were there. What is said of every row is kept if each
change to a row keeps it. -/

namespace BranchAndCut

variable {K : Type} [Scalar K]

/-- A coefficient added in one column leaves the others. -/
theorem Matrix.storedIn_addTo {v j : Nat} (hne : v ≠ j) (a : K) (coefs : List (Nat × K)) :
    storedIn (Row.addTo v a coefs) j = storedIn coefs j := by
  obtain ⟨old, b, hold, after, hcoefs, heq⟩ := Row.addTo_eq v a coefs
  have hskip : ∀ entries : List (Nat × K), (∀ e ∈ entries, e.1 = v) →
      entries.filter (fun e => e.1 == j && e.2 != 0) = [] := fun entries hentries =>
    List.filter_eq_nil_iff.mpr fun e he => by simp [hentries e he, hne]
  have hreplaced : ∀ e ∈ old, e.1 = v := by
    rcases hold with ⟨rfl, -⟩ | ⟨c, rfl, -⟩
    · nofun
    · exact List.forall_mem_singleton.mpr rfl
  have hadded : ∀ e ∈ Row.entry v b, e.1 = v := fun e he => congrArg Prod.fst (Row.mem_entry he)
  unfold storedIn
  rw [heq]
  conv_rhs => rw [hcoefs]
  rw [List.filter_append, List.filter_append, hskip _ hadded, List.filter_append, List.filter_append,
    hskip _ hreplaced]

namespace KeyedSimplex

variable {o u : KeyedSimplex K} {pos : Nat}

/-! ## Columns -/

theorem pushColumn_cost (o : KeyedSimplex K) (col : NewColumn K) : (o.pushColumn col).cost = o.cost.push col.cost :=
  congrArg cost (rowless_pushColumn o col)

theorem pushColumn_lower (o : KeyedSimplex K) (col : NewColumn K) : (o.pushColumn col).lower = o.lower.push 0 :=
  congrArg lower (rowless_pushColumn o col)

theorem pushColumn_upper (o : KeyedSimplex K) (col : NewColumn K) :
    (o.pushColumn col).upper = o.upper.push Scalar.inf :=
  congrArg upper (rowless_pushColumn o col)

section

omit [Scalar K]

variable (entry : RowKey × Row K)

theorem putRow_cost (o : KeyedSimplex K) : (o.putRow entry).cost = o.cost := by
  unfold putRow
  split <;> rfl

theorem putRow_lower (o : KeyedSimplex K) : (o.putRow entry).lower = o.lower := by
  unfold putRow
  split <;> rfl

theorem putRow_upper (o : KeyedSimplex K) : (o.putRow entry).upper = o.upper := by
  unfold putRow
  split <;> rfl

end

/-! ## Steps -/

/-- A call that only adds columns and rows or sets bounds. -/
def Call.Adds : Call K → Prop
  | .addColumns _ | .addRows _ | .setBounds _ _ => True
  | .removeRows _ | .restoreBasis _ | .clearBasis | .solve => False

/-- What every new column, every new row and every change of the bounds keeps, a call that
makes such changes keeps as well, whether it succeeds or fails. -/
theorem Call.Adds.keeps {I : KeyedSimplex K → Prop} {call : Call K} (hadds : call.Adds)
    (hchanged : ∀ u, I u → I u.changed)
    (hcolumn : ∀ cols, call = .addColumns cols → ∀ col ∈ cols, ∀ u, I u → col.var = u.numCols → I (u.pushColumn col))
    (hrow : ∀ rows, call = .addRows rows → ∀ entry ∈ rows, ∀ u, I u → (∀ e ∈ entry.2.coefs, e.1 < u.numCols) →
      I (u.putRow entry))
    (hbounds : ∀ lower upper, call = .setBounds lower upper → ∀ u, I u → lower.size = u.numCols →
      upper.size = u.numCols → I { u with lower, upper })
    (h : I o) : Ensures call.run o (fun _ u => I u) fun _ u => I u := by
  cases call with
  | addColumns cols =>
    refine (addColumns_outcome o cols).mono ?_ ?_
    · rintro _ u ⟨rfl, hcontinues⟩
      exact hchanged _ (hcontinues.keeps (hcolumn cols rfl) h)
    · rintro _ u ⟨done, bad, rest, rfl, hdone, -, rfl, -⟩
      exact hdone.keeps (fun col hcol => hcolumn _ rfl col (List.mem_append_left _ hcol)) h
  | addRows rows =>
    refine (addRows_outcome o rows).mono ?_ ?_
    · rintro _ u ⟨rfl, hbelow⟩
      exact hchanged _ (hbelow.keeps (hrow rows rfl) h)
    · rintro _ u ⟨done, bad, rest, v, rfl, hdone, -, -, rfl, -⟩
      exact hdone.keeps (fun entry hentry => hrow _ rfl entry (List.mem_append_left _ hentry)) h
  | setBounds lower upper =>
    refine (setBounds_outcome o lower upper).mono ?_ ?_
    · rintro _ u ⟨rfl, hlower, hupper⟩
      exact hchanged _ (hbounds lower upper rfl o h hlower hupper)
    · rintro _ u ⟨rfl, -⟩
      exact h
  | removeRows keys => exact hadds.elim
  | restoreBasis basis => exact hadds.elim
  | clearBasis => exact hadds.elim
  | solve => exact hadds.elim

/-! ## What holds of every row -/

/-- Every row has a property. -/
def RowsAll (P : Row K → Prop) (o : KeyedSimplex K) : Prop := ∀ entry ∈ o.rows, P entry.2

section RowsAll

variable {P : Row K → Prop}

omit [Scalar K] in
theorem RowsAll.modifyRow (h : o.RowsAll P) (pos : Nat) {f : Row K → Row K} (hf : ∀ r, P r → P (f r)) :
    (o.modifyRow pos f).RowsAll P := by
  intro entry hentry
  obtain ⟨i, hi⟩ := Array.mem_iff_getElem?.mp hentry
  unfold KeyedSimplex.modifyRow at hi
  rw [Array.getElem?_modify] at hi
  split at hi
  · obtain ⟨old, hold, rfl⟩ := Option.map_eq_some_iff.mp hi
    exact hf _ (h old (Array.mem_of_getElem? hold))
  · exact h entry (Array.mem_of_getElem? hi)

omit [Scalar K] in
theorem RowsAll.putRow (h : o.RowsAll P) {entry : RowKey × Row K} (hentry : P entry.2) :
    (o.putRow entry).RowsAll P := by
  unfold KeyedSimplex.putRow
  split
  · exact h.modifyRow _ fun _ _ => hentry
  · intro x hx
    rcases Array.mem_push.mp hx with hx | rfl
    · exact h x hx
    · exact hentry

theorem RowsAll.pushColumn (h : o.RowsAll P) {col : NewColumn K}
    (hcol : ∀ e ∈ col.entries, ∀ r, P r → P (r.addCoef col.var e.2)) : (o.pushColumn col).RowsAll P := by
  have hstart : (o.pushCost col.cost).RowsAll P := h
  unfold KeyedSimplex.pushColumn
  generalize o.pushCost col.cost = u at hstart
  generalize col.entries = entries at hcol
  induction entries generalizing u with
  | nil => exact hstart
  | cons e entries ih =>
    obtain ⟨he, hrest⟩ := List.forall_mem_cons.mp hcol
    refine ih (KeyedSimplex.addEntry col.var u e) ?_ hrest
    unfold KeyedSimplex.addEntry
    split
    · exact hstart.modifyRow _ he
    · exact hstart

end RowsAll

/-! ## Rows that are there -/

/-- Everything that was there is there, in its place; old rows have the same coefficients
in old columns. -/
structure Extends (o u : KeyedSimplex K) : Prop where
  settings : u.settings = o.settings
  warm : u.warm = o.warm
  cols : o.numCols ≤ u.numCols
  rows : ∀ (pos : Nat) key r, o.rows[pos]? = some (key, r) → ∃ r', u.rows[pos]? = some (key, r') ∧
    ∀ j < o.numCols, Matrix.storedIn r'.coefs j = Matrix.storedIn r.coefs j

/-- A call that adds no row under a key that is there. -/
def Call.Fresh (o : KeyedSimplex K) : Call K → Prop
  | .addRows rows => ∀ entry ∈ rows, o.hasRow entry.1 = false
  | .addColumns _ | .removeRows _ | .setBounds _ _ | .restoreBasis _ | .clearBasis | .solve => True

namespace Extends

theorem refl (o : KeyedSimplex K) : o.Extends o := ⟨rfl, rfl, le_rfl, fun _ _ r hr => ⟨r, hr, fun _ _ => rfl⟩⟩

theorem changed (h : o.Extends u) : o.Extends u.changed := ⟨h.settings, h.warm, h.cols, h.rows⟩

theorem setBounds (h : o.Extends u) (lower upper : Array K) : o.Extends { u with lower, upper } :=
  ⟨h.settings, h.warm, h.cols, h.rows⟩

theorem pushCost (h : o.Extends u) (cost : K) : o.Extends (u.pushCost cost) where
  settings := h.settings
  warm := h.warm
  cols := h.cols.trans ((Nat.le_succ _).trans_eq (Array.size_push cost).symm)
  rows := h.rows

/-- A change that leaves the old columns of the row alone, or is to a new row. -/
theorem modifyRow (h : o.Extends u) {f : Row K → Row K}
    (hf : pos < o.rows.size → ∀ r, ∀ j < o.numCols, Matrix.storedIn (f r).coefs j = Matrix.storedIn r.coefs j) :
    o.Extends (u.modifyRow pos f) where
  settings := h.settings
  warm := h.warm
  cols := h.cols
  rows p key r hr := by
    obtain ⟨r', hr', hstored⟩ := h.rows p key r hr
    show ∃ r', (u.rows.modify pos _)[p]? = some (key, r') ∧ _
    rw [Array.getElem?_modify, hr']
    split
    · next hpos =>
      subst hpos
      refine ⟨f r', rfl, fun j hj => ?_⟩
      rw [hf (Array.getElem?_eq_some_iff.mp hr).1 r' j hj, hstored j hj]
    · exact ⟨r', rfl, hstored⟩

theorem pushColumn (h : o.Extends u) {col : NewColumn K} (hcol : col.var = u.numCols) :
    o.Extends (u.pushColumn col) := by
  have hstart := h.pushCost col.cost
  have hnew : ∀ j < o.numCols, col.var ≠ j := fun j hj => (hj.trans_le (h.cols.trans_eq hcol.symm)).ne'
  unfold KeyedSimplex.pushColumn
  generalize u.pushCost col.cost = v at hstart
  induction col.entries generalizing v with
  | nil => exact hstart
  | cons e entries ih =>
    refine ih (KeyedSimplex.addEntry col.var v e) ?_
    unfold KeyedSimplex.addEntry
    split
    · exact hstart.modifyRow fun _ r j hj => Matrix.storedIn_addTo (hnew j hj) e.2 r.coefs
    · exact hstart

/-- A row under a key that was not there. -/
theorem putRow (h : o.Extends u) (ho : o.Aligned) (hu : u.Aligned) {entry : RowKey × Row K}
    (hnew : o.hasRow entry.1 = false) : o.Extends (u.putRow entry) := by
  unfold KeyedSimplex.putRow
  cases hpos : u.position? entry.1 with
  | some pos =>
    refine h.modifyRow fun hlt => ?_
    -- the position is that of an old row, which has another key
    obtain ⟨r', hrow'⟩ := hu.position?_iff.mp hpos
    obtain ⟨⟨key, old⟩, hold⟩ : ∃ x, o.rows[pos]? = some x := ⟨_, Array.getElem?_eq_getElem hlt⟩
    obtain ⟨r, hrow, -⟩ := h.rows pos key old hold
    obtain ⟨hkey, -⟩ := Prod.mk.inj (Option.some.inj (hrow'.symm.trans hrow))
    rw [hasRow_eq, hkey, ho.position?_eq hold] at hnew
    cases hnew
  | none =>
    refine ⟨h.settings, h.warm, h.cols, fun p key r hr => ?_⟩
    obtain ⟨r', hr', hstored⟩ := h.rows p key r hr
    refine ⟨r', ?_, hstored⟩
    rw [Array.getElem?_push, if_neg (Array.getElem?_eq_some_iff.mp hr').1.ne, hr']

theorem run (h : o.Extends u) (ho : o.Aligned) (hu : u.Aligned) {call : Call K} (hadds : call.Adds)
    (hfresh : call.Fresh o) :
    Ensures call.run u (fun _ w => o.Extends w ∧ w.Aligned) fun _ w => o.Extends w ∧ w.Aligned := by
  refine hadds.keeps (fun w hw => ⟨hw.1.changed, hw.2⟩) ?_ ?_ ?_ ⟨h, hu⟩
  · exact fun cols _ col _ w hw hvar => ⟨hw.1.pushColumn hvar, hw.2.pushColumn col⟩
  · rintro rows rfl entry hentry w hw -
    exact ⟨hw.1.putRow ho hw.2 (hfresh entry hentry), hw.2.putRow entry⟩
  · exact fun lower upper _ w hw _ _ => ⟨hw.1.setBounds lower upper, hw.2⟩

end Extends

end KeyedSimplex

end BranchAndCut

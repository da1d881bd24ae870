import BranchAndCut.Proofs.Relaxation.Numbers

/-! # Warm starts

The basis of a solve is kept by column and by row key. In a relaxation that has grown since
then, the old columns and rows find their statuses, new columns are not basic and new rows
are: as many rows as statuses are added, and the matrix of the basic columns is the old one
beside new slacks. So the next solve starts from a basis. -/

namespace BranchAndCut.KeyedSimplex

/-! ## A basis in a new order -/

section Translation

variable {K : Type} [Scalar K] {o u : KeyedSimplex K} {saved : SavedBasis}

theorem newColumnStatus_ne_basic (o : KeyedSimplex K) (j : Nat) : o.newColumnStatus j ≠ .basic := by
  unfold newColumnStatus
  split
  · nofun
  · split
    · nofun
    · nofun

/-- The statuses of a saved basis without the keys. -/
def statuses (saved : SavedBasis) : Lp.Basis where
  cols := saved.cols
  rows := saved.rows.map Prod.snd

/-- A saved basis has a status for every column and row, in order. -/
structure Covers (saved : SavedBasis) (o : KeyedSimplex K) : Prop where
  cols : saved.cols.length = o.numCols
  keys : saved.rows.map Prod.fst = o.rows.toList.map Prod.fst

/-- New columns are not basic. -/
theorem Covers.cols_basisOf (h : Covers saved o) (hext : o.Extends u) :
    (u.basisOf saved).cols = saved.cols ++
      (List.range (u.numCols - o.numCols)).map fun k => u.newColumnStatus (o.numCols + k) := by
  refine List.ext_getElem? fun j => ?_
  show ((List.range u.numCols).map fun j => (saved.cols[j]?).getD (u.newColumnStatus j))[j]? = _
  have hle := hext.cols
  rw [List.getElem?_map, List.getElem?_append, h.cols]
  split
  · next hj =>
    rw [List.getElem?_range (hj.trans_le hle), Option.map_some, List.getElem?_eq_getElem (h.cols.symm ▸ hj)]
    rfl
  · next hj =>
    have hnone : saved.cols[j]? = none := List.getElem?_eq_none (h.cols.trans_le (not_lt.mp hj))
    rw [List.getElem?_map]
    by_cases hlt : j < u.numCols
    · rw [List.getElem?_range hlt, List.getElem?_range (by omega), Option.map_some, Option.map_some, hnone,
        Nat.add_sub_cancel' (not_lt.mp hj)]
      rfl
    · rw [List.getElem?_eq_none (by simpa using hlt), List.getElem?_eq_none (by simpa using by omega)]
      rfl

omit [Scalar K] in
/-- The statuses of the rows are those of the rows in their order. -/
theorem Covers.row (h : Covers saved o) {i : Nat} {key : RowKey} :
    (∃ r, o.rows[i]? = some (key, r)) ↔ ∃ st, saved.rows[i]? = some (key, st) := by
  have hkey : (saved.rows[i]?).map Prod.fst = (o.rows[i]?).map Prod.fst := by
    rw [← List.getElem?_map, h.keys, List.getElem?_map, Array.getElem?_toList]
  constructor
  · rintro ⟨r, hr⟩
    rw [hr, Option.map_some, Option.map_eq_some_iff] at hkey
    obtain ⟨⟨_, st⟩, hst, rfl⟩ := hkey
    exact ⟨st, hst⟩
  · rintro ⟨st, hst⟩
    rw [hst, Option.map_some, eq_comm, Option.map_eq_some_iff] at hkey
    obtain ⟨⟨_, r⟩, hr, rfl⟩ := hkey
    exact ⟨r, hr⟩

omit [Scalar K] in
theorem Covers.rows_length (h : Covers saved o) : saved.rows.length = o.numRows := by
  have hlength := congrArg List.length h.keys
  rwa [List.length_map, List.length_map, Array.length_toList] at hlength

/-- New rows are basic. -/
theorem Covers.rows_basisOf (h : Covers saved o) (hext : o.Extends u) (ho : o.Aligned) (hu : u.Aligned) :
    (u.basisOf saved).rows = (statuses saved).rows ++ List.replicate (u.numRows - o.numRows) .basic := by
  have hnodup : (saved.rows.map Prod.fst).Nodup := h.keys ▸ ho.nodup_keys
  refine List.ext_getElem? fun i => ?_
  show (u.rows.toList.map fun entry => (saved.rows.lookup entry.1).getD .basic)[i]? = _
  have hlength : (statuses saved).rows.length = o.numRows := (List.length_map _).trans h.rows_length
  rw [List.getElem?_map, List.getElem?_append, Array.getElem?_toList, hlength]
  split
  · next hi =>
    -- an old row, which is where it was
    obtain ⟨⟨key, r⟩, hrow⟩ : ∃ x, o.rows[i]? = some x := ⟨_, Array.getElem?_eq_getElem hi⟩
    obtain ⟨r', hrow', -⟩ := hext.rows i key r hrow
    obtain ⟨st, hst⟩ := h.row.mp ⟨r, hrow⟩
    have hlookup : saved.rows.lookup key = some st := Matrix.lookup_of_mem hnodup (List.mem_of_getElem? hst)
    rw [hrow', statuses, List.getElem?_map, hst, Option.map_some, Option.map_some, hlookup]
    rfl
  · next hi =>
    rw [List.getElem?_replicate]
    cases hrow : u.rows[i]? with
    | none =>
      have hle : u.numRows ≤ i := Array.getElem?_eq_none_iff.mp hrow
      rw [if_neg (by omega)]
      rfl
    | some entry =>
      have hlt : i < u.numRows := (Array.getElem?_eq_some_iff.mp hrow).1
      have hnone : saved.rows.lookup entry.1 = none := by
        refine List.lookup_eq_none_iff.mpr fun x hx => bne_iff_ne.mpr fun heq => hi ?_
        -- the key of an old row is where it was, and nowhere else
        obtain ⟨p, hp⟩ := List.mem_iff_getElem?.mp hx
        obtain ⟨r, hr⟩ := h.row.mpr ⟨x.2, hp⟩
        obtain ⟨r', hr', -⟩ := hext.rows p x.1 r hr
        have hsame := (hu.position?_eq hr').symm.trans (heq ▸ hu.position?_eq hrow)
        exact Option.some.inj hsame ▸ (Array.getElem?_eq_some_iff.mp hr).1
      rw [if_pos (by omega), Option.map_some, hnone]
      rfl

/-- Only old columns are basic. -/
theorem Covers.col_basic (h : Covers saved o) (hext : o.Extends u) {j : Nat}
    (hj : (u.basisOf saved).cols[j]? = some .basic) : j < o.numCols ∧ saved.cols[j]? = some .basic := by
  rw [h.cols_basisOf hext, List.getElem?_append, h.cols] at hj
  split at hj
  · next hlt => exact ⟨hlt, hj⟩
  · obtain ⟨k, -, hk⟩ := List.mem_map.mp (List.mem_of_getElem? hj)
    exact (u.newColumnStatus_ne_basic _ hk).elim

theorem Covers.cols_length (h : Covers saved o) (hext : o.Extends u) : (u.basisOf saved).cols.length = u.numCols := by
  rw [h.cols_basisOf hext, List.length_append, h.cols, List.length_map, List.length_range,
    Nat.add_sub_cancel' hext.cols]

/-- As many rows are new as statuses that are basic. -/
theorem Covers.numBasic_basisOf (h : Covers saved o) (hext : o.Extends u) (ho : o.Aligned) (hu : u.Aligned) :
    (u.basisOf saved).numBasic = (statuses saved).numBasic + (u.numRows - o.numRows) := by
  have hnew :
      ((List.range (u.numCols - o.numCols)).map fun k => u.newColumnStatus (o.numCols + k)).count .basic = 0 := by
    refine List.count_eq_zero.mpr fun hmem => ?_
    obtain ⟨k, -, hk⟩ := List.mem_map.mp hmem
    exact u.newColumnStatus_ne_basic _ hk
  unfold Lp.Basis.numBasic Lp.Basis.all
  rw [h.cols_basisOf hext, h.rows_basisOf hext ho hu, List.count_append, List.count_append, List.count_append,
    List.count_append, List.count_replicate_self, hnew, Nat.add_zero, Nat.add_assoc]
  rfl

end Translation

section Starting

variable [Rooted ℚ] {o u : KeyedSimplex (Exact ℚ)} {saved : SavedBasis}

/-! ## The grown program -/

theorem Extends.numRows (h : o.Extends u) : o.numRows ≤ u.numRows := by
  by_contra hlt
  obtain ⟨⟨key, r⟩, hrow⟩ : ∃ x, o.rows[u.numRows]? = some x := ⟨_, Array.getElem?_eq_getElem (not_le.mp hlt)⟩
  obtain ⟨r', hrow', -⟩ := h.rows _ key r hrow
  exact (Array.getElem?_eq_some_iff.mp hrow').1.false

theorem Extends.program (h : o.Extends u) (ho : o.Consistent) (hu : u.Consistent) :
    o.program.a.Extends u.program.a where
  rows := by
    rw [program_a_numRows, program_a_numRows]
    exact h.numRows
  cols := h.cols
  value i hi j hj := by
    rw [program_a_numRows] at hi
    obtain ⟨⟨key, r⟩, hrow⟩ : ∃ x, o.rows[i]? = some x := ⟨_, Array.getElem?_eq_getElem hi⟩
    obtain ⟨r', hrow', hstored⟩ := h.rows i key r hrow
    rw [Matrix.value_of_stored hu.program.ascending, Matrix.value_of_stored ho.program.ascending,
      hu.stored_eq hrow', ho.stored_eq hrow, hstored j hj]

/-- **A basis of the old program is one of the grown program.** -/
theorem Covers.hasBasis (h : Covers saved o) (hext : o.Extends u) (ho : o.Consistent) (hu : u.Consistent)
    (hbasis : o.program.HasBasis (statuses saved)) : u.program.HasBasis (u.basisOf saved) := by
  have hcols := h.cols_length hext
  have hrows : (u.basisOf saved).rows.length = u.numRows := (List.length_map _).trans (Array.length_toList)
  refine ⟨hcols, hrows.trans u.program_numRows.symm, ?_, hbasis.independent.extend (hext.program ho hu) ?_ ?_ ?_⟩
  · rw [h.numBasic_basisOf hext ho.aligned hu.aligned, hbasis.count, program_numRows, program_numRows,
      Nat.add_sub_cancel' hext.numRows]
  · intro j hj
    have hlt := (List.getElem?_eq_some_iff.mp hj).1
    rw [program_a_numRows]
    rwa [Lp.Basis.all, List.length_append, hcols, hrows] at hlt
  · intro j hj hlt
    obtain ⟨hold, hst⟩ := h.col_basic hext ((Lp.Basis.getElem?_all_col (hcols.symm ▸ hlt)).symm.trans hj)
    have hall : (statuses saved).all[j]? = saved.cols[j]? := Lp.Basis.getElem?_all_col (h.cols.symm ▸ hold)
    exact ⟨hold, hall.trans hst⟩
  · intro i hi hslack
    have hlength : i < (statuses saved).rows.length := by
      rw [program_a_numRows] at hi
      exact hi.trans_eq ((List.length_map _).trans h.rows_length).symm
    have hold : (u.basisOf saved).rows[i]? = (statuses saved).rows[i]? := by
      rw [h.rows_basisOf hext ho.aligned hu.aligned, List.getElem?_append_left hlength]
    have hst : (u.basisOf saved).rows[i]? = some .basic := by
      rw [← Lp.Basis.getElem?_all_row, hcols]
      exact hslack
    show (statuses saved).all[o.numCols + i]? = some .basic
    rw [← h.cols, ← hst, hold]
    exact Lp.Basis.getElem?_all_row (statuses saved) i

/-! ## Solves -/

/-- The basis of a solution, kept by column and row key. -/
def keep (o : KeyedSimplex (Exact ℚ)) (b : Lp.Basis) : SavedBasis where
  cols := b.cols
  rows := (o.rows.map Prod.fst).toList.zip b.rows

/-- A solve starts from the kept basis in the current order, and keeps its own. -/
theorem solve_ensures (o : KeyedSimplex (Exact ℚ)) :
    Ensures solve o
      (fun r u => ∃ s last, Lp.Simplex.new o.program o.settings = .ok s ∧
        r.warmStarted = (s.solve (o.warm.map o.basisOf)).1.effort.warmStarted ∧
        u = { o with
          warm := some (o.keep (s.solve (o.warm.map o.basisOf)).1.basis)
          lastBasis := some (o.keep (s.solve (o.warm.map o.basisOf)).1.basis)
          last })
      fun _ _ => o.program.validate ≠ .ok () := by
  unfold solve
  refine .bind (.get ?_)
  split
  · next hnew =>
    refine .throw fun hvalidate => ?_
    rw [Lp.Simplex.new_eq hvalidate] at hnew
    cases hnew
  · next s hnew => exact .bind (.set (.pure ⟨s, _, hnew, rfl, rfl⟩))

/-- After a solve there is a basis for every column and row. -/
theorem Consistent.solve_covers (h : o.Consistent) (htol : 0 ≤ o.settings.tolPivot) :
    Ensures solve o (fun _ u => ∃ saved, u.warm = some saved ∧ u.settings = o.settings ∧ u.program.Valid ∧
      Covers saved u ∧ u.program.HasBasis (statuses saved)) fun _ _ => True := by
  refine o.solve_ensures.mono ?_ fun _ _ _ => trivial
  rintro r u ⟨s, last, hnew, -, rfl⟩
  have hwf := h.program.wellFormed
  obtain ⟨hvalid, hs, hset⟩ := Lp.Simplex.new_of hwf hnew
  have hbasis := Lp.Simplex.solve_hasBasis hvalid hwf hs (hset.symm ▸ htol) (o.warm.map o.basisOf)
  generalize (s.solve (o.warm.map o.basisOf)).1.basis = b at hbasis
  have hlength : (o.rows.map Prod.fst).toList.length = b.rows.length := by
    rw [hbasis.rows, program_numRows, Array.length_toList, Array.size_map]
    rfl
  refine ⟨_, rfl, rfl, hvalid, ⟨hbasis.cols, ?_⟩, ?_⟩
  · show ((o.rows.map Prod.fst).toList.zip b.rows).map Prod.fst = _
    rw [List.map_fst_zip hlength.le, Array.toList_map]
  · show o.program.HasBasis ⟨b.cols, ((o.rows.map Prod.fst).toList.zip b.rows).map Prod.snd⟩
    rw [List.map_snd_zip hlength.ge]
    exact hbasis

/-- A basis from which a solve is to start is taken. -/
theorem Consistent.taken (h : o.Consistent) (htol : o.settings.tolPivot = 0) {b : Lp.Basis}
    (hbasis : o.program.HasBasis b) {s : Lp.Simplex (Exact ℚ)} (hnew : Lp.Simplex.new o.program o.settings = .ok s) :
    (s.installBasis b).2 = true := by
  obtain ⟨hvalid, hs, hset⟩ := Lp.Simplex.new_of h.program.wellFormed hnew
  exact hbasis.installed hvalid h.program.wellFormed hs (hset.symm ▸ htol)

/-- A solve that starts from a basis reports it. -/
theorem Consistent.solve_warmStarted (h : o.Consistent) (htol : o.settings.tolPivot = 0) {b : Lp.Basis}
    (hbasis : o.program.HasBasis b) (hstart : o.warm.map o.basisOf = some b) :
    Ensures solve o (fun r _ => r.warmStarted = true) fun _ _ => True := by
  refine o.solve_ensures.mono ?_ fun _ _ _ => trivial
  rintro r u ⟨s, -, hnew, hreport, -⟩
  rw [hreport, Lp.Simplex.solve_warmStarted, hstart]
  unfold Lp.Simplex.start
  dsimp only
  rw [if_pos (h.taken htol hbasis hnew)]

/-- A solve with meaningful numbers returns. -/
theorem Consistent.solve_returns (h : o.Consistent) (hnumeric : o.Numeric) (hbounded : o.Bounded) :
    ∃ r u, Returns solve o r u := by
  have hvalidate := (h.valid_iff.mpr ⟨hnumeric, hbounded⟩).validate
  have hreturns : Ensures solve o (fun _ _ => True) fun _ _ => False :=
    o.solve_ensures.mono (fun _ _ _ => trivial) fun _ _ hrefused => hrefused hvalidate
  obtain ⟨r, u, hsolve, -⟩ := hreturns.exists_returns
  exact ⟨r, u, hsolve⟩

/-- A call that lets an oracle grow: with finite numbers, and no row under a key that was there. -/
structure Call.Grows (o : KeyedSimplex (Exact ℚ)) (call : Call (Exact ℚ)) : Prop where
  adds : call.Adds
  fresh : call.Fresh o
  numeric : call.Numeric

/-- **Warm starts survive growth.** After a solve that returned, whatever columns, rows under
new keys and bounds come in: the kept basis in the new order has as many basic columns as
there are rows, they are independent, and the solver takes it. So the next solve that
returns was warm started, and it does return if no bounds that came in are infinite towards
the inside. -/
theorem solve_grown_warmStarted (ho : o.Reachable) (htol : o.settings.tolPivot = 0) {r : Relaxation (Exact ℚ)}
    (hsolve : Returns solve o r u) {calls : List (Call (Exact ℚ))} (hcalls : ∀ call ∈ calls, call.Grows u) :
    let w := after calls u
    ∃ b, w.warm.map w.basisOf = some b ∧ b.numBasic = w.numRows ∧
      LinearIndepOn ℚ w.program.a.constraintColumn {j | b.all[j]? = some .basic} ∧
      (∀ s, Lp.Simplex.new w.program w.settings = .ok s → (s.installBasis b).2 = true) ∧
      (∀ r' v, Returns solve w r' v → r'.warmStarted = true) ∧
      ((∀ call ∈ calls, call.Bounded) → ∃ r' v, Returns solve w r' v) := by
  intro w
  have htol' : 0 ≤ o.settings.tolPivot := by rw [htol, Exact.zero_def, Exact.fin_le]
  obtain ⟨saved, hwarm, hsettings, hvalid, hcovers, hbasis⟩ := (ho.consistent.solve_covers htol').returns hsolve
  have hreached : u.Reachable := by
    have hcall : Returns (solve >>= fun _ => pure ()) o () u := hsolve.andThen rfl
    exact @Reachable.returned _ _ o u .solve ho hcall
  have hu : u.Consistent := hreached.consistent
  have hw : w.Consistent := (hreached.after calls).consistent
  obtain ⟨hnumeric, hbounded⟩ := hu.valid_iff.mp hvalid
  have hext : u.Extends w := (after_keeps (I := fun w => u.Extends w ∧ w.Aligned) (fun call hcall v hv =>
    hv.1.run hu.aligned hv.2 (hcalls call hcall).adds (hcalls call hcall).fresh) ⟨.refl u, hu.aligned⟩).1
  have hwnumeric : w.Numeric := after_keeps (fun call hcall v hv =>
    hv.run (hcalls call hcall).adds (hcalls call hcall).numeric) hnumeric
  have hwtol : w.settings.tolPivot = 0 := by rw [hext.settings, hsettings, htol]
  have hwbasis := hcovers.hasBasis hext hu hw hbasis
  have hstart : w.warm.map w.basisOf = some (w.basisOf saved) := by rw [hext.warm, hwarm, Option.map_some]
  refine ⟨w.basisOf saved, hstart, hwbasis.count.trans w.program_numRows, ?_, fun s => hw.taken hwtol hwbasis,
    fun r' v => (hw.solve_warmStarted hwtol hwbasis hstart).returns, fun hcall => hw.solve_returns hwnumeric ?_⟩
  · exact hwbasis.linearIndepOn hw.program.wellFormed ⟨w.program_a_numRows.trans w.program_numRows.symm, rfl⟩
      (hw.stored_iff.mpr hwnumeric.rows)
  · exact after_keeps (fun call hin v hv => hv.run (hcalls call hin).adds (hcall call hin)) hbounded

end Starting

/-- A column with a cost of minus one below a cut. -/
def capped : KeyedSimplex (Exact ℚ) := after [
  .addColumns [{ var := 0, cost := -1 }],
  .addRows [(.cut 0, ⟨[(0, 1)], 0, 3⟩)],
  .setBounds #[0] #[10]] { settings := { tolPrimal := 0, tolDual := 0, tolPivot := 0 } }

/-- A column in the cut, a further cut, and no bounds any more for the columns but one. -/
def growth : List (Call (Exact ℚ)) := [
  .addColumns [{ var := 1, cost := -2, entries := [(.cut 0, 1)] }],
  .addRows [(.cut 1, ⟨[(0, 1), (1, -1)], 0, 1⟩)],
  .setBounds #[0, .negInf] #[.posInf, .posInf]]

/-- The column is basic and the slack of its cut is not; the slack of the new cut is. -/
theorem solve_grown_warmStarted_capped : ∃ r u, Returns solve capped r u ∧
    ∃ b, (after growth u).warm.map (after growth u).basisOf = some b ∧ b.numBasic = 2 ∧
      ∃ r' v, Returns solve (after growth u) r' v ∧ r'.warmStarted = true := by
  have hcapped : capped.Reachable := (Reachable.new _).after _
  have hrun : Ensures solve capped (fun _ u => u.hasRow (.cut 1) = false ∧ (after growth u).numRows = 2)
      fun _ _ => False := by
    decide +kernel
  obtain ⟨r, u, hsolve, hfresh, hrows⟩ := hrun.exists_returns
  have hnumeric : ∀ call ∈ growth, call.Numeric := by decide +kernel
  have hbounded : ∀ call ∈ growth, call.Bounded := by decide +kernel
  have hcalls : ∀ call ∈ growth, call.Adds ∧ call.Fresh u := by simp [growth, Call.Adds, Call.Fresh, hfresh]
  obtain ⟨b, hstart, hcount, -, -, hwarm, hreturns⟩ := solve_grown_warmStarted hcapped rfl hsolve
    fun call hcall => ⟨(hcalls call hcall).1, (hcalls call hcall).2, hnumeric call hcall⟩
  obtain ⟨r', v, hnext⟩ := hreturns hbounded
  exact ⟨r, u, hsolve, b, hstart, hcount.trans hrows, r', v, hnext, hwarm r' v hnext⟩

end BranchAndCut.KeyedSimplex

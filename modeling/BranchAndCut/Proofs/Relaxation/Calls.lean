import BranchAndCut.Proofs.Exact
import BranchAndCut.Proofs.Program
import BranchAndCut.Proofs.Relaxation.Keys

/-! # Calls of the simplex oracle

What each call does to the oracle, whether it succeeds or fails, and what holds of every
oracle that calls lead to. Columns and rows are taken one by one, up to the first that is
refused. -/

namespace BranchAndCut

/-! ## Loops that stop at a refusal -/

section Loops

variable {ε σ α : Type} {step : σ → α → σ} {accepts : σ → α → Prop} {refuses : σ → α → ε → Prop}

/-- Every element is accepted in the state to which those before it lead. -/
def AllAccepted (accepts : σ → α → Prop) (step : σ → α → σ) (s : σ) (xs : List α) : Prop :=
  ∀ done x rest, xs = done ++ x :: rest → accepts (done.foldl step s) x

theorem AllAccepted.nil (s : σ) : AllAccepted accepts step s [] := fun done x rest h => by
  cases done <;> cases h

theorem AllAccepted.cons {s : σ} {x : α} {xs : List α} (hx : accepts s x)
    (h : AllAccepted accepts step (step s x) xs) : AllAccepted accepts step s (x :: xs) := by
  rintro (_ | ⟨y, done⟩) z rest heq
  · obtain ⟨rfl, -⟩ := List.cons.inj heq
    exact hx
  · obtain ⟨rfl, htail⟩ := List.cons.inj heq
    exact h done z rest htail

/-- A loop whose rounds take a step or stop with the state as it was. -/
theorem Ensures.forM_steps {act : α → EStateM ε σ PUnit}
    (hact : ∀ x s, Ensures (act x) s (fun _ t => t = step s x ∧ accepts s x) fun e t => t = s ∧ refuses s x e)
    (xs : List α) (s : σ) :
    Ensures (xs.forM act) s (fun _ t => t = xs.foldl step s ∧ AllAccepted accepts step s xs) fun e t =>
      ∃ done bad rest, xs = done ++ bad :: rest ∧ AllAccepted accepts step s done ∧
        t = done.foldl step s ∧ refuses t bad e := by
  induction xs generalizing s with
  | nil => exact .pure ⟨rfl, .nil s⟩
  | cons x xs ih =>
    refine .bind ((hact x s).mono ?_ ?_)
    · rintro _ t ⟨rfl, hx⟩
      refine (ih (step s x)).mono (fun _ t ht => ⟨ht.1, .cons hx ht.2⟩) ?_
      rintro e t ⟨done, bad, rest, rfl, hdone, ht, hbad⟩
      exact ⟨x :: done, bad, rest, rfl, .cons hx hdone, ht, hbad⟩
    · rintro e t ⟨rfl, hbad⟩
      exact ⟨[], x, xs, rfl, .nil t, rfl, hbad⟩

end Loops

namespace KeyedSimplex

variable {K : Type} {o u : KeyedSimplex K} {key : RowKey} {r : Row K}

theorem numCols_rowless (o : KeyedSimplex K) : o.rowless.numCols = o.numCols := rfl

theorem numCols_putRow (o : KeyedSimplex K) (entry : RowKey × Row K) : (o.putRow entry).numCols = o.numCols := by
  rw [← numCols_rowless, rowless_putRow, numCols_rowless]

theorem numCols_removeRow (o : KeyedSimplex K) (key : RowKey) : (o.removeRow key).numCols = o.numCols := by
  rw [← numCols_rowless, rowless_removeRow, numCols_rowless]

theorem numCols_putRows (o : KeyedSimplex K) (rows : List (RowKey × Row K)) :
    (rows.foldl putRow o).numCols = o.numCols :=
  foldl_keeps numCols numCols_putRow o rows

variable [Scalar K]

theorem numCols_pushColumn (o : KeyedSimplex K) (col : NewColumn K) :
    (o.pushColumn col).numCols = o.numCols + 1 := by
  rw [← numCols_rowless, rowless_pushColumn]
  exact Array.size_push _

theorem numCols_pushColumns (o : KeyedSimplex K) (cols : List (NewColumn K)) :
    (cols.foldl pushColumn o).numCols = o.numCols + cols.length := by
  induction cols generalizing o with
  | nil => rfl
  | cons col cols ih => rw [List.foldl_cons, ih, numCols_pushColumn, List.length_cons, Nat.add_assoc, Nat.add_comm 1]

/-! ## Outcomes -/

/-- The columns continue a numbering. -/
def Continues (n : Nat) (cols : List (NewColumn K)) : Prop := ∀ i col, cols[i]? = some col → col.var = n + i

/-- The rows name no column from `n` on. -/
def Below (n : Nat) (rows : List (RowKey × Row K)) : Prop := ∀ entry ∈ rows, ∀ e ∈ entry.2.coefs, e.1 < n

/-- What each new column keeps. -/
theorem Continues.keeps {I : KeyedSimplex K → Prop} {cols : List (NewColumn K)} (hcols : Continues o.numCols cols)
    (hstep : ∀ col ∈ cols, ∀ u, I u → col.var = u.numCols → I (u.pushColumn col)) (h : I o) :
    I (cols.foldl pushColumn o) := by
  induction cols generalizing o with
  | nil => exact h
  | cons col cols ih =>
    obtain ⟨hcol, hrest⟩ := List.forall_mem_cons.mp hstep
    refine ih (fun i c hc => ?_) hrest (hcol o h (hcols 0 col rfl))
    rw [hcols (i + 1) c hc, numCols_pushColumn, Nat.add_assoc, Nat.add_comm 1]

omit [Scalar K] in
/-- What each new row keeps. -/
theorem Below.keeps {I : KeyedSimplex K → Prop} {rows : List (RowKey × Row K)} (hrows : Below o.numCols rows)
    (hstep : ∀ entry ∈ rows, ∀ u, I u → (∀ e ∈ entry.2.coefs, e.1 < u.numCols) → I (u.putRow entry)) (h : I o) :
    I (rows.foldl putRow o) := by
  induction rows generalizing o with
  | nil => exact h
  | cons entry rows ih =>
    obtain ⟨hentry, hrest⟩ := List.forall_mem_cons.mp hstep
    obtain ⟨hbelow, hrows⟩ := List.forall_mem_cons.mp hrows
    refine ih ?_ hrest (hentry o h hbelow)
    rw [numCols_putRow]
    exact hrows

/-- **Columns are added up to the first that is out of order.** -/
theorem addColumns_outcome (o : KeyedSimplex K) (cols : List (NewColumn K)) :
    Ensures (addColumns cols) o
      (fun _ u => u = (cols.foldl pushColumn o).changed ∧ Continues o.numCols cols)
      fun e u => ∃ done bad rest, cols = done ++ bad :: rest ∧ Continues o.numCols done ∧
        bad.var ≠ o.numCols + done.length ∧ u = done.foldl pushColumn o ∧
        e = .internal (.columnOrder bad.var (o.numCols + done.length)) := by
  have hcontinues : ∀ {cols : List (NewColumn K)},
      AllAccepted (fun o col => col.var = o.numCols) pushColumn o cols → Continues o.numCols cols := by
    intro cols h i col hcol
    obtain ⟨hlt, hget⟩ := List.getElem?_eq_some_iff.mp hcol
    rw [h (cols.take i) col (cols.drop (i + 1)) (by rw [← hget, List.getElem_cons_drop, List.take_append_drop]),
      numCols_pushColumns, List.length_take_of_le hlt.le]
  have hact : ∀ (col : NewColumn K) (o : KeyedSimplex K), Ensures (addColumn col) o
      (fun _ t => t = o.pushColumn col ∧ col.var = o.numCols)
      fun e t => t = o ∧ col.var ≠ o.numCols ∧ e = .internal (.columnOrder col.var o.numCols) := by
    intro col o
    refine .bind (.get ?_)
    split
    · next hvar => exact .throw ⟨rfl, hvar, rfl⟩
    · next hvar => exact .set ⟨rfl, not_not.mp hvar⟩
  refine .bind ((Ensures.forM_steps hact cols o).mono ?_ ?_)
  · rintro _ t ⟨rfl, h⟩
    exact .modify ⟨rfl, hcontinues h⟩
  · rintro e t ⟨done, bad, rest, hcols, hdone, rfl, hbad, rfl⟩
    rw [numCols_pushColumns] at hbad ⊢
    exact ⟨done, bad, rest, hcols, hcontinues hdone, hbad, rfl, rfl⟩

omit [Scalar K] in
/-- **Rows are added up to the first that names an unknown column.** -/
theorem addRows_outcome (o : KeyedSimplex K) (rows : List (RowKey × Row K)) :
    Ensures (addRows rows) o (fun _ u => u = (rows.foldl putRow o).changed ∧ Below o.numCols rows)
      fun e u => ∃ done bad rest v, rows = done ++ bad :: rest ∧ Below o.numCols done ∧
        v ∈ bad.2.coefs.map Prod.fst ∧ o.numCols ≤ v ∧ u = done.foldl putRow o ∧
        e = .internal (.unknownColumn bad.1 v) := by
  have hbelow : ∀ {rows : List (RowKey × Row K)},
      AllAccepted (fun o entry => ∀ e ∈ entry.2.coefs, e.1 < o.numCols) putRow o rows → Below o.numCols rows := by
    intro rows h entry hentry
    obtain ⟨done, rest, rfl⟩ := List.append_of_mem hentry
    exact numCols_putRows o done ▸ h done entry rest rfl
  have hact : ∀ (entry : RowKey × Row K) (o : KeyedSimplex K), Ensures (addRow entry) o
      (fun _ t => t = o.putRow entry ∧ ∀ e ∈ entry.2.coefs, e.1 < o.numCols)
      fun e t => t = o ∧ ∃ v, v ∈ entry.2.coefs.map Prod.fst ∧ o.numCols ≤ v ∧
        e = .internal (.unknownColumn entry.1 v) := by
    intro entry o
    refine .bind (.get ?_)
    split
    · next v a hfind =>
      exact .throw ⟨rfl, v, List.mem_map.mpr ⟨_, List.mem_of_find?_eq_some hfind, rfl⟩,
        by simpa using List.find?_some hfind, rfl⟩
    · next hfind => exact .set ⟨rfl, by simpa using hfind⟩
  refine .bind ((Ensures.forM_steps hact rows o).mono ?_ ?_)
  · rintro _ t ⟨rfl, h⟩
    exact .modify ⟨rfl, hbelow h⟩
  · rintro e t ⟨done, bad, rest, hrows, hdone, rfl, v, hv, hle, rfl⟩
    rw [numCols_putRows] at hle
    exact ⟨done, bad, rest, v, hrows, hbelow hdone, hv, hle, rfl, rfl⟩

omit [Scalar K] in
theorem setBounds_outcome (o : KeyedSimplex K) (lower upper : Array K) :
    Ensures (setBounds lower upper) o
      (fun _ u => u = { o with lower, upper }.changed ∧ lower.size = o.numCols ∧ upper.size = o.numCols)
      fun e u => u = o ∧ e = .internal (.boundLengths lower.size upper.size o.numCols) := by
  refine .bind (.get ?_)
  split
  · exact .throw ⟨rfl, rfl⟩
  · next hsize =>
    rw [not_or, not_not, not_not] at hsize
    exact .set ⟨rfl, hsize⟩

/-- What a solve keeps for the next one. -/
theorem solve_outcome (o : KeyedSimplex K) :
    Ensures solve o (fun _ u => u.rowless = { o with warm := u.warm, lastBasis := u.lastBasis, last := u.last }.rowless
      ∧ u.rows = o.rows ∧ u.positions = o.positions) fun _ u => u = o := by
  unfold solve
  refine .bind (.get ?_)
  split
  · exact .throw rfl
  · exact .bind (.set (.pure ⟨rfl, rfl, rfl⟩))

/-! ## Reachable oracles -/

/-- A call that may change the oracle. -/
inductive Call (K : Type) where
  | addColumns (cols : List (NewColumn K))
  | addRows (rows : List (RowKey × Row K))
  | removeRows (keys : List RowKey)
  | setBounds (lower upper : Array K)
  | restoreBasis (basis : SavedBasis)
  | clearBasis
  | solve

def Call.run : Call K → EStateM (Error K) (KeyedSimplex K) Unit
  | .addColumns cols => oracle.addColumns cols
  | .addRows rows => oracle.addRows rows
  | .removeRows keys => oracle.removeRows keys
  | .setBounds lower upper => oracle.setBounds lower upper
  | .restoreBasis basis => modify (oracle.restoreBasis basis)
  | .clearBasis => modify oracle.clearBasis
  | .solve => discard oracle.solve

/-- An oracle that calls lead to, some of which may have failed. -/
inductive Reachable : KeyedSimplex K → Prop where
  | new (settings : Lp.Settings K) : Reachable { settings }
  | returned {o u : KeyedSimplex K} {call : Call K} : Reachable o → Returns call.run o ⟨⟩ u → Reachable u
  | failed {o u : KeyedSimplex K} {call : Call K} {e : Error K} :
    Reachable o → call.run o = .error e u → Reachable u

/-- The positions of the rows are right, and the rows name columns that are there. -/
structure Consistent (o : KeyedSimplex K) : Prop where
  aligned : o.Aligned
  inRange : ∀ key r, o.row? key = some r → ∀ e ∈ r.coefs, e.1 < o.numCols

namespace Consistent

omit [Scalar K] in
theorem new (settings : Lp.Settings K) : Consistent { settings } :=
  ⟨.empty settings, fun _ _ h => nomatch (row?_eq_none rfl).symm.trans h⟩

omit [Scalar K] in
theorem of_eq (h : o.Consistent) (hcols : o.numCols = u.numCols) (hrows : u.rows = o.rows)
    (hpositions : u.positions = o.positions) : u.Consistent :=
  ⟨h.aligned.of_eq hrows hpositions, fun key r hr =>
    hcols ▸ h.inRange key r ((row?_of_eq hrows hpositions).symm.trans hr)⟩

omit [Scalar K] in
theorem putRow (h : o.Consistent) {entry : RowKey × Row K} (hentry : ∀ e ∈ entry.2.coefs, e.1 < o.numCols) :
    (o.putRow entry).Consistent where
  aligned := h.aligned.putRow entry
  inRange key r hr := by
    rw [h.aligned.row?_putRow] at hr
    rw [numCols_putRow]
    split at hr
    · exact Option.some.inj hr ▸ hentry
    · exact h.inRange key r hr

omit [Scalar K] in
theorem removeRow (h : o.Consistent) (key : RowKey) : (o.removeRow key).Consistent where
  aligned := h.aligned.removeRow key
  inRange k r hr := by
    rw [h.aligned.row?_removeRow] at hr
    rw [numCols_removeRow]
    split at hr
    · cases hr
    · exact h.inRange k r hr

theorem pushColumn (h : o.Consistent) {col : NewColumn K} (hcol : col.var = o.numCols) :
    (o.pushColumn col).Consistent where
  aligned := h.aligned.pushColumn col
  inRange key r hr e he := by
    rw [h.aligned.row?_pushColumn, Option.map_eq_some_iff] at hr
    obtain ⟨r, hr, rfl⟩ := hr
    rw [numCols_pushColumn]
    rcases mem_extended he with hvar | ⟨e', he', hvar⟩
    · exact Nat.lt_succ_of_le (hvar.trans hcol).le
    · exact hvar ▸ Nat.lt_succ_of_lt (h.inRange key r hr e' he')

/-- Whatever is called, and whether it succeeds or fails. -/
theorem run (h : o.Consistent) (call : Call K) :
    Ensures call.run o (fun _ u => u.Consistent) fun _ u => u.Consistent := by
  cases call with
  | addColumns cols =>
    have hcols : ∀ cols, Continues o.numCols cols → (cols.foldl KeyedSimplex.pushColumn o).Consistent :=
      fun cols hcols => hcols.keeps (fun _ _ _ hu hcol => hu.pushColumn hcol) h
    refine (addColumns_outcome o cols).mono ?_ ?_
    · rintro _ u ⟨rfl, hcontinues⟩
      exact (hcols cols hcontinues).of_eq rfl rfl rfl
    · rintro _ u ⟨done, bad, rest, -, hdone, -, rfl, -⟩
      exact hcols done hdone
  | addRows rows =>
    have hrows : ∀ rows, Below o.numCols rows → (rows.foldl KeyedSimplex.putRow o).Consistent :=
      fun rows hrows => hrows.keeps (fun _ _ _ hu hentry => hu.putRow hentry) h
    refine (addRows_outcome o rows).mono ?_ ?_
    · rintro _ u ⟨rfl, hbelow⟩
      exact (hrows rows hbelow).of_eq rfl rfl rfl
    · rintro _ u ⟨done, bad, rest, v, -, hdone, -, -, rfl, -⟩
      exact hrows done hdone
  | removeRows keys =>
    refine .modify (of_eq (o := keys.foldl KeyedSimplex.removeRow o) ?_ rfl rfl rfl)
    induction keys generalizing o with
    | nil => exact h
    | cons key keys ih => exact ih (h.removeRow key)
  | setBounds lower upper =>
    refine (setBounds_outcome o lower upper).mono ?_ ?_
    · rintro _ u ⟨rfl, -⟩
      exact h.of_eq rfl rfl rfl
    · rintro _ u ⟨rfl, -⟩
      exact h
  | restoreBasis basis => exact .modify (h.of_eq rfl rfl rfl)
  | clearBasis => exact .modify (h.of_eq rfl rfl rfl)
  | solve =>
    refine .bind ((solve_outcome o).mono ?_ ?_)
    · rintro _ u ⟨hu, hrows, hpositions⟩
      exact .pure (h.of_eq (congrArg (·.cost.size) hu).symm hrows hpositions)
    · rintro _ u rfl
      exact h

end Consistent

theorem Reachable.consistent (h : o.Reachable) : o.Consistent := by
  induction h with
  | new settings => exact .new settings
  | @returned _ _ call _ hrun ih => exact (ih.run call).returns hrun
  | @failed _ _ call _ _ hrun ih => exact (ih.run call).fails hrun

/-! ## Several calls -/

/-- The state after some calls, whatever they answer. -/
def after (calls : List (Call K)) (o : KeyedSimplex K) : KeyedSimplex K :=
  calls.foldl (fun o call => match call.run o with
    | .ok _ u => u
    | .error _ u => u) o

/-- What each of the calls keeps. -/
theorem after_keeps {I : KeyedSimplex K → Prop} {calls : List (Call K)}
    (hcalls : ∀ call ∈ calls, ∀ o, I o → Ensures call.run o (fun _ u => I u) fun _ u => I u) (h : I o) :
    I (after calls o) := by
  induction calls generalizing o with
  | nil => exact h
  | cons call calls ih =>
    obtain ⟨hcall, hrest⟩ := List.forall_mem_cons.mp hcalls
    refine ih hrest ?_
    dsimp only
    split
    · next hrun => exact (hcall o h).returns hrun
    · next hrun => exact (hcall o h).fails hrun

theorem Reachable.run (h : o.Reachable) (call : Call K) :
    Ensures call.run o (fun _ u => u.Reachable) fun _ u => u.Reachable := by
  unfold Ensures
  split
  · next hrun => exact h.returned hrun
  · next hrun => exact h.failed hrun

theorem Reachable.after (h : o.Reachable) (calls : List (Call K)) : (after calls o).Reachable :=
  after_keeps (fun call _ _ h => h.run call) h

/-! ## Updates that fail

Columns and rows are checked one by one while they are added. An update that fails has
added those before the one at fault, and the tableau of the last solve, which does not
know them, stays. -/

section Refusal

variable {e : Error K}

/-- What a call that fails leaves of an oracle, and how it is reported. -/
def Leaves (o : KeyedSimplex K) (e : Error K) (u : KeyedSimplex K) : Call K → Prop
  | .addColumns cols => ∃ done bad rest, cols = done ++ bad :: rest ∧ Continues o.numCols done ∧
      bad.var ≠ o.numCols + done.length ∧ e = .internal (.columnOrder bad.var (o.numCols + done.length)) ∧
      u = done.foldl pushColumn o
  | .addRows rows => ∃ done bad rest v, rows = done ++ bad :: rest ∧ Below o.numCols done ∧
      v ∈ bad.2.coefs.map Prod.fst ∧ o.numCols ≤ v ∧ e = .internal (.unknownColumn bad.1 v) ∧
      u = done.foldl putRow o
  | .setBounds lower upper => e = .internal (.boundLengths lower.size upper.size o.numCols) ∧ u = o
  | .removeRows _ | .restoreBasis _ | .clearBasis | .solve => u = o

theorem Call.ensures_leaves (call : Call K) (o : KeyedSimplex K) :
    Ensures call.run o (fun _ _ => True) fun e u => Leaves o e u call := by
  cases call with
  | addColumns cols =>
    refine (addColumns_outcome o cols).mono (fun _ _ _ => trivial) ?_
    rintro e u ⟨done, bad, rest, hcols, hdone, hbad, hu, he⟩
    exact ⟨done, bad, rest, hcols, hdone, hbad, he, hu⟩
  | addRows rows =>
    refine (addRows_outcome o rows).mono (fun _ _ _ => trivial) ?_
    rintro e u ⟨done, bad, rest, v, hrows, hdone, hv, hle, hu, he⟩
    exact ⟨done, bad, rest, v, hrows, hdone, hv, hle, he, hu⟩
  | removeRows keys => exact .modify trivial
  | setBounds lower upper =>
    exact (setBounds_outcome o lower upper).mono (fun _ _ _ => trivial) fun _ _ hu => ⟨hu.2, hu.1⟩
  | restoreBasis basis => exact .modify trivial
  | clearBasis => exact .modify trivial
  | solve => exact .bind ((solve_outcome o).mono (fun _ _ _ => .pure trivial) fun _ _ hu => hu)

/-- What the oracle remembers of its solves. -/
def memory (o : KeyedSimplex K) : Option SavedBasis × Option SavedBasis × Option (Lp.Simplex K × Array RowKey) :=
  (o.warm, o.lastBasis, o.last)

omit [Scalar K] in
theorem memory_rowless (o : KeyedSimplex K) : o.rowless.memory = o.memory := rfl

omit [Scalar K] in
theorem memory_putRow (o : KeyedSimplex K) (entry : RowKey × Row K) : (o.putRow entry).memory = o.memory := by
  rw [← memory_rowless, rowless_putRow, memory_rowless]

theorem memory_pushColumn (o : KeyedSimplex K) (col : NewColumn K) : (o.pushColumn col).memory = o.memory := by
  rw [← memory_rowless, rowless_pushColumn]
  rfl

/-- **A call that fails** keeps the columns or the rows before the one at fault, and
forgets nothing of the last solve; any other call leaves the oracle as it was. -/
theorem run_failing {call : Call K} (h : call.run o = .error e u) : Leaves o e u call ∧ u.memory = o.memory := by
  have hleaves : Leaves o e u call := (call.ensures_leaves o).fails h
  refine ⟨hleaves, ?_⟩
  cases call with
  | addColumns cols =>
    obtain ⟨done, -, -, -, -, -, -, rfl⟩ := hleaves
    exact foldl_keeps memory memory_pushColumn o done
  | addRows rows =>
    obtain ⟨done, -, -, -, -, -, -, -, -, rfl⟩ := hleaves
    exact foldl_keeps memory memory_putRow o done
  | setBounds lower upper => rw [hleaves.2]
  | removeRows keys => exact congrArg memory hleaves
  | restoreBasis basis => exact congrArg memory hleaves
  | clearBasis => exact congrArg memory hleaves
  | solve => exact congrArg memory hleaves

/-- A column with a cost of minus one below a cut, solved. -/
def solved : KeyedSimplex (Exact ℚ) := after [
  .addColumns [{ var := 0, cost := -1 }],
  .addRows [(.cut 0, ⟨[(0, 1)], 0, 3⟩)],
  .setBounds #[0] #[10],
  .solve] { settings := .default }

/-- A new column, and one that is out of order. -/
def disordered : Call (Exact ℚ) := .addColumns [{ var := 1, cost := 0 }, { var := 5, cost := 0 }]

/-- The columns of the oracle, and those that the rows of its tableau name. -/
def named (o : KeyedSimplex (Exact ℚ)) : Nat × List LpColumn :=
  (o.numCols, match o.tableauRows [0] with
    | .ok rows => rows.flatMap fun row => row.entries.map (·.col)
    | .error _ => [])

/-- The tableau, which knows one column and the slack of the cut, is read as one of two columns. -/
theorem disordered_fails : ∃ e u, disordered.run solved = .error e u ∧ solved.named = (1, [.slack (.cut 0)]) ∧
    u.named = (2, [.var 1]) := by
  have hrun : Ensures disordered.run solved (fun _ _ => False)
      fun _ u => solved.named = (1, [.slack (.cut 0)]) ∧ u.named = (2, [.var 1]) := by
    decide +kernel
  exact hrun.exists_fails

/-- The new column in order is kept. -/
theorem run_failing_disordered : ∃ e u, disordered.run solved = .error e u ∧ Leaves solved e u disordered ∧
    u.memory = solved.memory := by
  obtain ⟨e, u, hfails, -⟩ := disordered_fails
  exact ⟨e, u, hfails, run_failing hfails⟩

/-- A failing update of an oracle that has just been solved does not leave its columns as they were. -/
theorem failing_update_adds_column : ¬ ∀ o : KeyedSimplex (Exact ℚ), o.Reachable → ∀ (call : Call (Exact ℚ)) e u,
    call.run o = .error e u → u.cost = o.cost ∧ u.lower = o.lower ∧ u.upper = o.upper ∧
      ∀ key, u.row? key = o.row? key := by
  intro h
  obtain ⟨e, u, hfails, hone, htwo⟩ := disordered_fails
  obtain ⟨hcost, -⟩ := h solved ((Reachable.new _).after _) disordered e u hfails
  have hcols : u.numCols = solved.numCols := congrArg Array.size hcost
  have hsolved : solved.numCols = 1 := congrArg Prod.fst hone
  have hleft : u.numCols = 2 := congrArg Prod.fst htwo
  omega

end Refusal

end KeyedSimplex

end BranchAndCut

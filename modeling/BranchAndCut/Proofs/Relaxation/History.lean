import BranchAndCut.Proofs.Linear.Triplets
import BranchAndCut.Proofs.Relaxation.Calls

/-! # The rows of a relaxation and its history

Calls add, extend and remove rows under keys. What stands under a key is the row that was
added last since the key was removed last, extended by the coefficients of later columns,
and the linear program is made of the rows that stand. -/

namespace BranchAndCut

variable {K : Type} [Scalar K]

/-! ## What the calls say of the rows -/

/-- Something that a call does to the row under a key. -/
inductive RowEvent (K : Type) where
  | added (key : RowKey) (row : Row K)
  | extended (key : RowKey) (v : VarId) (coef : K)
  | removed (key : RowKey)

namespace RowEvent

/-- The key has another row from now on, or none. -/
def Resets (key : RowKey) : RowEvent K → Prop
  | added k _ | removed k => key = k
  | extended _ _ _ => False

/-- A row that stands under a key gets the coefficient of a column. -/
def extend (key : RowKey) : RowEvent K → Row K → Row K
  | extended k v coef, r => if key = k then r.addCoef v coef else r
  | added _ _, r | removed _, r => r

/-- What is under a key after the event. -/
def next (key : RowKey) : RowEvent K → Option (Row K) → Option (Row K)
  | added k row, now => if key = k then some row else now
  | extended k v coef, now => if key = k then now.map (·.addCoef v coef) else now
  | removed k, now => if key = k then none else now

variable {key : RowKey} {now : Option (Row K)} {r : Row K} {e : RowEvent K}

theorem next_of_resets (he : e.Resets key) : e.next key now = some r ↔ e = .added key r := by
  cases e with
  | added k row =>
    obtain rfl : key = k := he
    simp [next]
  | extended k v coef => exact he.elim
  | removed k =>
    obtain rfl : key = k := he
    simp [next]

theorem next_of_not_resets (he : ¬ e.Resets key) : e.next key now = now.map (e.extend key) := by
  cases e with
  | added k row => exact (if_neg he).trans Option.map_id'.symm
  | extended k v coef =>
    unfold next extend
    by_cases hk : key = k
    · simp only [if_pos hk]
    · simp only [if_neg hk, Option.map_id']
  | removed k => exact (if_neg he).trans Option.map_id'.symm

end RowEvent

/-- The row under a key: the one added last since the key was removed last, extended by
the coefficients of the columns added since then that name the key. -/
def Stands (events : List (RowEvent K)) (key : RowKey) (r : Row K) : Prop :=
  ∃ before first after, events = before ++ .added key first :: after ∧ (∀ e ∈ after, ¬ e.Resets key) ∧
    r = after.foldl (fun r e => e.extend key r) first

section Stands

variable {events : List (RowEvent K)} {e : RowEvent K} {key : RowKey} {r : Row K}

theorem stands_concat_of_resets (he : e.Resets key) : Stands (events ++ [e]) key r ↔ e = .added key r := by
  constructor
  · rintro ⟨before, first, after, heq, hafter, rfl⟩
    rcases List.eq_nil_or_concat' after with rfl | ⟨after, last, rfl⟩
    · exact List.singleton_inj.mp (List.append_inj' heq rfl).2
    · rw [← List.cons_append, ← List.append_assoc] at heq
      obtain rfl := List.singleton_inj.mp (List.append_inj' heq rfl).2
      exact (hafter e (List.mem_append_right _ (List.mem_singleton_self e)) he).elim
  · rintro rfl
    exact ⟨events, r, [], rfl, nofun, rfl⟩

theorem stands_concat_of_not_resets (he : ¬ e.Resets key) :
    Stands (events ++ [e]) key r ↔ ∃ r', Stands events key r' ∧ e.extend key r' = r := by
  constructor
  · rintro ⟨before, first, after, heq, hafter, rfl⟩
    rcases List.eq_nil_or_concat' after with rfl | ⟨after, last, rfl⟩
    · obtain rfl := List.singleton_inj.mp (List.append_inj' heq rfl).2
      exact (he rfl).elim
    · rw [← List.cons_append, ← List.append_assoc] at heq
      obtain ⟨hevents, hlast⟩ := List.append_inj' heq rfl
      obtain rfl := List.singleton_inj.mp hlast
      refine ⟨_, ⟨before, first, after, hevents, fun x hx => hafter x (List.mem_append_left _ hx), rfl⟩, ?_⟩
      rw [List.foldl_append]
      rfl
  · rintro ⟨_, ⟨before, first, after, rfl, hafter, rfl⟩, rfl⟩
    refine ⟨before, first, after ++ [e], by rw [List.append_assoc]; rfl, ?_, by rw [List.foldl_append]; rfl⟩
    rintro x hx
    rcases List.mem_append.mp hx with hx | hx
    · exact hafter x hx
    · exact List.mem_singleton.mp hx ▸ he

/-- What is under a key is what stands there. -/
theorem foldl_next_iff (events : List (RowEvent K)) (key : RowKey) (r : Row K) :
    events.foldl (fun now e => e.next key now) none = some r ↔ Stands events key r := by
  induction events using List.reverseRecOn generalizing r with
  | nil =>
    refine iff_of_false nofun ?_
    rintro ⟨before, first, after, heq, -⟩
    cases before <;> cases heq
  | append_singleton events e ih =>
    rw [List.foldl_append, List.foldl_cons, List.foldl_nil]
    by_cases he : e.Resets key
    · rw [stands_concat_of_resets he, RowEvent.next_of_resets he]
    · rw [stands_concat_of_not_resets he, RowEvent.next_of_not_resets he, Option.map_eq_some_iff]
      simp only [ih]

end Stands

namespace KeyedSimplex

variable {o u : KeyedSimplex K} {key : RowKey}

/-- What a call that succeeds does to the rows, in order. -/
def Call.events : Call K → List (RowEvent K)
  | .addColumns cols => cols.flatMap fun col => col.entries.map fun (key, coef) => .extended key col.var coef
  | .addRows rows => rows.map fun (key, row) => .added key row
  | .removeRows keys => keys.map .removed
  | .setBounds _ _ | .restoreBasis _ | .clearBasis | .solve => []

theorem foldl_next_extended (v : VarId) (entries : List (RowKey × K)) (key : RowKey) (now : Option (Row K)) :
    (entries.map fun (key, coef) => RowEvent.extended key v coef).foldl (fun now e => e.next key now) now =
      now.map (extended v entries key) := by
  induction entries generalizing now with
  | nil => exact Option.map_id'.symm
  | cons entry entries ih =>
    rw [List.map_cons, List.foldl_cons, ih]
    unfold RowEvent.next extended
    by_cases hkey : key = entry.1
    · simp only [if_pos hkey, List.foldl_cons, Option.map_map]
      rfl
    · simp only [if_neg hkey, List.foldl_cons]

theorem Aligned.row?_pushColumns (h : o.Aligned) (cols : List (NewColumn K)) (key : RowKey) :
    (cols.foldl KeyedSimplex.pushColumn o).row? key =
      (Call.addColumns cols).events.foldl (fun now e => e.next key now) (o.row? key) := by
  induction cols generalizing o with
  | nil => rfl
  | cons col cols ih =>
    rw [List.foldl_cons, ih (h.pushColumn col), h.row?_pushColumn, ← foldl_next_extended, ← List.foldl_append]
    rfl

theorem Aligned.row?_putRows (h : o.Aligned) (rows : List (RowKey × Row K)) (key : RowKey) :
    (rows.foldl KeyedSimplex.putRow o).row? key =
      (Call.addRows rows).events.foldl (fun now e => e.next key now) (o.row? key) := by
  induction rows generalizing o with
  | nil => rfl
  | cons entry rows ih =>
    rw [List.foldl_cons, ih (h.putRow entry), h.row?_putRow]
    rfl

theorem Aligned.row?_removeRows (h : o.Aligned) (keys : List RowKey) (key : RowKey) :
    (keys.foldl KeyedSimplex.removeRow o).row? key =
      (Call.removeRows keys : Call K).events.foldl (fun now e => e.next key now) (o.row? key) := by
  induction keys generalizing o with
  | nil => rfl
  | cons k keys ih =>
    rw [List.foldl_cons, ih (h.removeRow k), h.row?_removeRow]
    rfl

/-- **A call does to each key what its events say.** -/
theorem Aligned.row?_run (h : o.Aligned) (call : Call K) :
    Ensures call.run o
      (fun _ u => ∀ key, u.row? key = call.events.foldl (fun now e => e.next key now) (o.row? key))
      fun _ _ => True := by
  cases call with
  | addColumns cols =>
    refine (addColumns_outcome o cols).mono ?_ fun _ _ _ => trivial
    rintro _ u ⟨rfl, -⟩ key
    exact h.row?_pushColumns cols key
  | addRows rows =>
    refine (addRows_outcome o rows).mono ?_ fun _ _ _ => trivial
    rintro _ u ⟨rfl, -⟩ key
    exact h.row?_putRows rows key
  | removeRows keys => exact .modify (h.row?_removeRows keys)
  | setBounds lower upper =>
    refine (setBounds_outcome o lower upper).mono ?_ fun _ _ _ => trivial
    rintro _ u ⟨rfl, -⟩ key
    rfl
  | restoreBasis basis => exact .modify fun _ => rfl
  | clearBasis => exact .modify fun _ => rfl
  | solve =>
    refine .bind ((solve_outcome o).mono ?_ fun _ _ _ => trivial)
    rintro _ u ⟨-, hrows, hpositions⟩
    exact .pure fun _ => row?_of_eq hrows hpositions

/-- The rows after calls that all succeed. -/
theorem Consistent.row?_calls (h : o.Consistent) {calls : List (Call K)} (hcalls : Returns (calls.forM Call.run) o ⟨⟩ u) :
    u.Consistent ∧ ∀ key, u.row? key =
      (calls.flatMap Call.events).foldl (fun now e => e.next key now) (o.row? key) := by
  induction calls generalizing o with
  | nil =>
    obtain ⟨-, rfl⟩ := hcalls.pure
    exact ⟨h, fun _ => rfl⟩
  | cons call calls ih =>
    obtain ⟨_, v, hcall, hrest⟩ := hcalls.bind
    obtain ⟨hu, hrows⟩ := ih ((h.run call).returns hcall) hrest
    refine ⟨hu, fun key => ?_⟩
    rw [hrows, (h.aligned.row?_run call).returns hcall key, List.flatMap_cons, List.foldl_append]

/-! ## The program -/

end KeyedSimplex

/-- A program that consists of some rows in their order: their sides, and at each position
the coefficients that are not zero. -/
structure Lp.Problem.ConsistsOf (p : Lp.Problem K) (rows : List (Row K)) : Prop where
  numRows : p.a.numRows = rows.length
  lower : p.rowLower.toList = rows.map (·.lhs)
  upper : p.rowUpper.toList = rows.map (·.rhs)
  wellFormed : p.a.WellFormed
  ascending : ∀ vec ∈ p.a.vectors, Matrix.Ascending vec
  stored : ∀ i j, p.a.stored i j = rows[i]?.bind fun row => Matrix.storedIn row.coefs j

namespace KeyedSimplex

variable {o u : KeyedSimplex K} {key : RowKey}

theorem storedIn_of_le {r : Row K} {n j : Nat} (h : ∀ e ∈ r.coefs, e.1 < n) (hj : n ≤ j) :
    Matrix.storedIn r.coefs j = none := by
  have hempty : (r.coefs.filter fun e => e.1 == j && e.2 != 0) = [] := by
    refine List.filter_eq_nil_iff.mpr fun e he => ?_
    have hne : e.1 ≠ j := ((h e he).trans_le hj).ne
    simp [hne]
  rw [Matrix.storedIn, hempty]
  rfl

theorem Consistent.program (h : o.Consistent) : o.program.ConsistsOf (o.rows.toList.map Prod.snd) where
  numRows := by
    show (o.rows.toList.map _).length = _
    rw [List.length_map, List.length_map]
  lower := by
    show (o.rows.map _).toList = _
    rw [Array.toList_map, List.map_map]
    rfl
  upper := by
    show (o.rows.map _).toList = _
    rw [Array.toList_map, List.map_map]
    rfl
  wellFormed := Matrix.ofRows_wellFormed _ _
  ascending _ hvec := Matrix.ofTriplets_ascending hvec
  stored i j := by
    show (Matrix.ofRows o.numCols _).stored i j = _
    rw [Matrix.stored_ofRows, List.getElem?_map, List.getElem?_map]
    cases hrow : o.rows.toList[i]? with
    | none => simp
    | some entry =>
      rw [Array.getElem?_toList] at hrow
      have hrange := h.inRange _ _ (h.aligned.row?_eq_some hrow)
      split
      · rfl
      · next hj => exact (storedIn_of_le hrange (not_lt.mp hj)).symm

/-- **The rows are a finite map from keys.** After calls that all succeed, the row under a
key is the one that stands there in the history of the calls, and the program consists of
the rows that stand, each once. -/
theorem rows_by_key {settings : Lp.Settings K} {calls : List (Call K)}
    (h : Returns (calls.forM Call.run) { settings } ⟨⟩ o) :
    let events := calls.flatMap Call.events
    (∀ key r, o.row? key = some r ↔ Stands events key r) ∧
    (∀ key, o.hasRow key = true ↔ ∃ r, Stands events key r) ∧
    ∃ rows : List (RowKey × Row K), (rows.map Prod.fst).Nodup ∧ (∀ key r, (key, r) ∈ rows ↔ Stands events key r) ∧
      o.numRows = rows.length ∧ o.program.ConsistsOf (rows.map Prod.snd) := by
  obtain ⟨ho, hrows⟩ := (Consistent.new settings).row?_calls h
  intro events
  have hstands : ∀ key r, o.row? key = some r ↔ Stands events key r := fun key r => by
    rw [hrows]
    exact foldl_next_iff events key r
  refine ⟨hstands, fun key => ?_, o.rows.toList, ho.aligned.nodup_keys, fun key r => ?_, rfl, ho.program⟩
  · rw [← ho.aligned.isSome_row?, Option.isSome_iff_exists]
    exact exists_congr (hstands key)
  · rw [Array.mem_toList_iff, ho.aligned.mem_rows, hstands]

/-- A key is given twice in one call, replaced, extended, removed and added again; another
one is removed while its row is the last, and a third was never there. -/
theorem rows_by_key_readded :
    let calls : List (Call (Exact ℚ)) := [
      .addColumns [{ var := 0, cost := 1 }],
      .addRows [(.cut 0, ⟨[(0, 1)], 0, 4⟩), (.constraint 0 0, ⟨[(0, 2)], 0, 3⟩), (.cut 0, ⟨[(0, 3)], 0, 5⟩)],
      .addColumns [{ var := 1, cost := 0, entries := [(.cut 0, 7), (.cut 8, 1), (.cut 0, 1)] }],
      .removeRows [.constraint 0 0, .cut 9],
      .addRows [(.cut 1, ⟨[], 0, 1⟩)],
      .removeRows [.cut 0],
      .addRows [(.cut 0, ⟨[(1, 6)], 0, 2⟩)]]
    ∃ o : KeyedSimplex (Exact ℚ), Returns (calls.forM Call.run) { settings := .default } ⟨⟩ o ∧
      Stands (calls.flatMap Call.events) (.cut 0) ⟨[(1, 6)], 0, 2⟩ ∧ o.hasRow (.cut 9) = false ∧
      ∃ rows : List (RowKey × Row (Exact ℚ)), rows.length = 2 ∧ o.program.ConsistsOf (rows.map Prod.snd) := by
  intro calls
  obtain ⟨o, hreturns, hsize, hcut, hother⟩ : ∃ o : KeyedSimplex (Exact ℚ),
      Returns (calls.forM Call.run) { settings := .default } ⟨⟩ o ∧ o.numRows = 2 ∧
        o.row? (.cut 0) = some ⟨[(1, 6)], 0, 2⟩ ∧ o.hasRow (.cut 9) = false := ⟨_, rfl, rfl, rfl, rfl⟩
  obtain ⟨hstands, -, rows, -, -, hrows, hprogram⟩ := rows_by_key hreturns
  exact ⟨o, hreturns, (hstands _ _).mp hcut, hother, rows, hrows ▸ hsize, hprogram⟩

end KeyedSimplex

end BranchAndCut

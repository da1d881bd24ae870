import BranchAndCut.Proofs.Program
import BranchAndCut.Proofs.Relaxation.Keys

/-! # What a relaxation holds

A relaxation has a number of columns and one row for each of its keys. The positions
of the rows in the simplex oracle, which change when rows are removed, tell no more. -/

namespace BranchAndCut

/-- The columns, which are known by their costs, and the rows of a relaxation. -/
structure Contents (K : Type) where
  costs : List K := []
  row : RowKey → Option (Row K) := fun _ => none

namespace Contents

variable {K : Type}

def numCols (c : Contents K) : Nat := c.costs.length

/-- Adds a row, or replaces the row with its key. -/
def put (c : Contents K) (entry : RowKey × Row K) : Contents K :=
  { c with row := Function.update c.row entry.1 (some entry.2) }

def drop (c : Contents K) (key : RowKey) : Contents K :=
  { c with row := Function.update c.row key none }

variable [Scalar K]

/-- Adds a coefficient to a row, if it is there. -/
def enter (v : VarId) (c : Contents K) (entry : RowKey × K) : Contents K :=
  { c with row := Function.update c.row entry.1 ((c.row entry.1).map (·.addCoef v entry.2)) }

/-- Adds a column with its coefficients. -/
def addColumn (c : Contents K) (col : NewColumn K) : Contents K :=
  col.entries.foldl (enter col.var) { c with costs := c.costs ++ [col.cost] }

def addColumns (c : Contents K) (cols : List (NewColumn K)) : Contents K := cols.foldl addColumn c

omit [Scalar K] in
def addRows (c : Contents K) (rows : List (RowKey × Row K)) : Contents K := rows.foldl put c

omit [Scalar K] in
def removeRows (c : Contents K) (keys : List RowKey) : Contents K := keys.foldl drop c

omit [Scalar K] in
theorem removeRows_row (c : Contents K) (keys : List RowKey) (key : RowKey) :
    (c.removeRows keys).row key = if key ∈ keys then none else c.row key := by
  induction keys generalizing c with
  | nil => rfl
  | cons k keys ih =>
    show ((c.drop k).removeRows keys).row key = _
    rw [ih]
    show (if key ∈ keys then none else Function.update c.row k none key) = _
    by_cases hk : key = k
    · subst hk
      simp
    · rw [Function.update_of_ne hk]
      simp [hk]

omit [Scalar K] in
theorem removeRows_costs (c : Contents K) (keys : List RowKey) :
    (c.removeRows keys).costs = c.costs := by
  induction keys generalizing c with
  | nil => rfl
  | cons k keys ih => exact ih (c.drop k)

omit [Scalar K] in
theorem addRows_costs (c : Contents K) (rows : List (RowKey × Row K)) :
    (c.addRows rows).costs = c.costs := by
  induction rows generalizing c with
  | nil => rfl
  | cons entry rows ih => exact ih (c.put entry)

theorem foldl_enter_costs (c : Contents K) (v : VarId) (entries : List (RowKey × K)) :
    (entries.foldl (enter v) c).costs = c.costs := by
  induction entries generalizing c with
  | nil => rfl
  | cons entry entries ih => exact ih (c.enter v entry)

theorem addColumns_costs (c : Contents K) (cols : List (NewColumn K)) :
    (c.addColumns cols).costs = c.costs ++ cols.map (·.cost) := by
  induction cols generalizing c with
  | nil => exact (List.append_nil _).symm
  | cons col cols ih =>
    show ((c.addColumn col).addColumns cols).costs = _
    rw [ih]
    unfold addColumn
    rw [foldl_enter_costs, List.append_assoc]
    rfl

theorem addColumns_row (c : Contents K) {cols : List (NewColumn K)} (hcols : ∀ col ∈ cols, col.entries = []) :
    (c.addColumns cols).row = c.row := by
  induction cols generalizing c with
  | nil => rfl
  | cons col cols ih =>
    show ((c.addColumn col).addColumns cols).row = c.row
    rw [ih _ fun x hx => hcols x (List.mem_cons_of_mem _ hx)]
    unfold addColumn
    rw [hcols col List.mem_cons_self]
    rfl

theorem enter_of_ne (c : Contents K) (v : VarId) (entry : RowKey × K) {key : RowKey} (h : key ≠ entry.1) :
    (c.enter v entry).row key = c.row key := Function.update_of_ne h _ _

/-- The rows of a constraint under its keys. -/
def keyed (id : ConsId) (rows : List (Row K)) (first : Nat) : List (RowKey × Row K) :=
  (rows.zipIdx first).map fun (row, k) => (.constraint id k, row)

omit [Scalar K] in
theorem addRows_keyed (c : Contents K) (id : ConsId) (rows : List (Row K)) (first k : Nat) :
    (c.addRows (keyed id rows first)).row (.constraint id k) =
      if first ≤ k ∧ k < first + rows.length then rows[k - first]? else c.row (.constraint id k) := by
  induction rows generalizing c first with
  | nil =>
    rw [List.length_nil, if_neg (by omega)]
    rfl
  | cons row rows ih =>
    show ((c.put (.constraint id first, row)).addRows (keyed id rows (first + 1))).row (.constraint id k) = _
    rw [ih, List.length_cons]
    show (if _ then _ else Function.update c.row (.constraint id first) (some row) (.constraint id k)) = _
    by_cases hk : k = first
    · subst hk
      rw [if_neg (by omega), if_pos (by omega), Function.update_self, Nat.sub_self, List.getElem?_cons_zero]
    · rw [Function.update_of_ne fun heq => hk (RowKey.constraint.inj heq).2]
      by_cases hlt : first ≤ k ∧ k < first + (rows.length + 1)
      · rw [if_pos (by omega), if_pos hlt, show k - first = k - (first + 1) + 1 by omega,
          List.getElem?_cons_succ]
      · rw [if_neg (by omega), if_neg hlt]

omit [Scalar K] in
theorem addRows_keyed_other (c : Contents K) (id : ConsId) (rows : List (Row K)) (first : Nat)
    {key : RowKey} (hkey : ∀ k, key ≠ .constraint id k) :
    (c.addRows (keyed id rows first)).row key = c.row key := by
  induction rows generalizing c first with
  | nil => rfl
  | cons row rows ih =>
    show ((c.put (.constraint id first, row)).addRows (keyed id rows (first + 1))).row key = _
    rw [ih]
    exact Function.update_of_ne (hkey first) _ _

end Contents

/-! ## The simplex oracle -/

namespace KeyedSimplex

variable {K : Type} {o : KeyedSimplex K} {c : Contents K} {key : RowKey}

/-- The oracle holds a relaxation. -/
structure Holds (o : KeyedSimplex K) (c : Contents K) : Prop where
  costs : o.cost.toList = c.costs
  aligned : o.Aligned
  row?_eq : ∀ key, o.row? key = c.row key

theorem Holds.empty (settings : Lp.Settings K) : Holds { settings } {} :=
  ⟨rfl, .empty settings, fun _ => row?_eq_none rfl⟩

theorem Holds.numCols (h : o.Holds c) : o.numCols = c.numCols := congrArg List.length h.costs

theorem Holds.of_eq (h : o.Holds c) {u : KeyedSimplex K} (hcost : u.cost = o.cost) (hrows : u.rows = o.rows)
    (hpositions : u.positions = o.positions) : u.Holds c :=
  ⟨hcost ▸ h.costs, h.aligned.of_eq hrows hpositions, fun key => (row?_of_eq hrows hpositions).trans (h.row?_eq key)⟩

theorem Holds.mem_rows (h : o.Holds c) {r : Row K} : (key, r) ∈ o.rows ↔ c.row key = some r := by
  rw [h.aligned.mem_rows, h.row?_eq]

theorem Holds.removeRow (h : o.Holds c) (key : RowKey) : (o.removeRow key).Holds (c.drop key) where
  costs := (congrArg (·.cost.toList) (o.rowless_removeRow key)).trans h.costs
  aligned := h.aligned.removeRow key
  row?_eq k := by
    rw [h.aligned.row?_removeRow, h.row?_eq]
    exact (Function.update_apply c.row key none k).symm

theorem Holds.removeRows (h : o.Holds c) (keys : List RowKey) :
    (o.removeRows keys).Holds (c.removeRows keys) := by
  unfold KeyedSimplex.removeRows Contents.removeRows
  refine Holds.of_eq (o := keys.foldl KeyedSimplex.removeRow o) ?_ rfl rfl rfl
  induction keys generalizing o c with
  | nil => exact h
  | cons key keys ih => exact ih (h.removeRow key)

theorem Holds.putRow (h : o.Holds c) (entry : RowKey × Row K) : (o.putRow entry).Holds (c.put entry) where
  costs := (congrArg (·.cost.toList) (o.rowless_putRow entry)).trans h.costs
  aligned := h.aligned.putRow entry
  row?_eq key := by
    rw [h.aligned.row?_putRow, h.row?_eq]
    exact (Function.update_apply c.row entry.1 (some entry.2) key).symm

variable [Scalar K]

omit [Scalar K] in
theorem Holds.addRow (h : o.Holds c) (entry : RowKey × Row K) :
    Ensures (KeyedSimplex.addRow entry) o (fun _ u => u.Holds (c.put entry)) fun _ _ => True := by
  refine .bind (.get ?_)
  split
  · exact .throw trivial
  · exact .set (h.putRow entry)

theorem Holds.addEntry (h : o.Holds c) (v : VarId) (entry : RowKey × K) :
    (KeyedSimplex.addEntry v o entry).Holds (c.enter v entry) where
  costs := (congrArg (·.cost.toList) (rowless_addEntry v o entry)).trans h.costs
  aligned := h.aligned.addEntry v entry
  row?_eq key := by
    rw [h.aligned.row?_addEntry, h.row?_eq]
    show _ = Function.update c.row entry.1 _ key
    rw [Function.update_apply]
    split
    · next hkey => rw [hkey]
    · rfl

theorem Holds.pushCost (h : o.Holds c) (cost : K) :
    (o.pushCost cost).Holds { c with costs := c.costs ++ [cost] } where
  costs := by
    rw [← h.costs]
    exact Array.toList_push
  aligned := h.aligned
  row?_eq := h.row?_eq

theorem Holds.pushColumn (h : o.Holds c) (col : NewColumn K) : (o.pushColumn col).Holds (c.addColumn col) := by
  unfold KeyedSimplex.pushColumn Contents.addColumn
  have hstart := h.pushCost col.cost
  generalize o.pushCost col.cost = u at hstart ⊢
  generalize ({ c with costs := c.costs ++ [col.cost] } : Contents K) = e at hstart ⊢
  induction col.entries generalizing u e with
  | nil => exact hstart
  | cons entry entries ih => exact ih _ _ (hstart.addEntry col.var entry)

theorem Holds.addColumn (h : o.Holds c) (col : NewColumn K) :
    Ensures (KeyedSimplex.addColumn col) o (fun _ u => u.Holds (c.addColumn col)) fun _ _ => True := by
  refine .bind (.get ?_)
  split
  · exact .throw trivial
  · exact .set (h.pushColumn col)

omit [Scalar K] in
/-- Rows and columns that are added one by one. -/
theorem Holds.forM {α : Type} {act : α → EStateM (Error K) (KeyedSimplex K) Unit}
    {next : Contents K → α → Contents K}
    (hact : ∀ {o c}, KeyedSimplex.Holds o c → ∀ x,
      Ensures (act x) o (fun _ u => u.Holds (next c x)) fun _ _ => True)
    (h : o.Holds c) (xs : List α) :
    Ensures (xs.forM act) o (fun _ u => u.Holds (xs.foldl next c)) fun _ _ => True := by
  induction xs generalizing o c with
  | nil => exact .pure h
  | cons x xs ih => exact .bind_mono (hact h x) fun _ u hu => ih hu

omit [Scalar K] in
theorem Holds.addRows (h : o.Holds c) (rows : List (RowKey × Row K)) :
    Ensures (KeyedSimplex.addRows rows) o (fun _ u => u.Holds (c.addRows rows)) fun _ _ => True :=
  .bind_mono (h.forM Holds.addRow rows) fun _ _ hu => .modify (hu.of_eq rfl rfl rfl)

theorem Holds.addColumns (h : o.Holds c) (cols : List (NewColumn K)) :
    Ensures (KeyedSimplex.addColumns cols) o (fun _ u => u.Holds (c.addColumns cols)) fun _ _ => True :=
  .bind_mono (h.forM Holds.addColumn cols) fun _ _ hu => .modify (hu.of_eq rfl rfl rfl)

omit [Scalar K] in
theorem Holds.setBounds (h : o.Holds c) (lower upper : Array K) :
    Ensures (KeyedSimplex.setBounds lower upper) o
      (fun _ u => u.Holds c ∧ lower.size = c.numCols ∧ upper.size = c.numCols) fun _ _ => True := by
  refine .bind (.get ?_)
  split
  · exact .throw trivial
  · next hsize =>
    rw [not_or, not_not, not_not, h.numCols] at hsize
    exact .set ⟨h.of_eq rfl rfl rfl, hsize⟩

/-- A solve leaves the relaxation alone, whether it succeeds or not. -/
theorem Holds.solve (h : o.Holds c) :
    Ensures KeyedSimplex.solve o (fun _ u => u.Holds c) fun _ u => u.Holds c := by
  unfold KeyedSimplex.solve
  refine .bind (.get ?_)
  split
  · exact .throw h
  · exact .bind (.set (.pure (h.of_eq rfl rfl rfl)))

end KeyedSimplex

end BranchAndCut

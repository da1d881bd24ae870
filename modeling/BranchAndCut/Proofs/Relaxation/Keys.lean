import BranchAndCut.Proofs.Arrays
import BranchAndCut.Relaxation.KeyedSimplex

/-! # Rows by key

The simplex oracle finds a row through the position recorded for its key. While the
positions are right, the rows are a finite map from keys, and each change is described
by what it does to every key; the positions themselves tell no more. -/

namespace BranchAndCut

namespace RowKey

variable (c d : ConsId) (k l i j : Nat)

@[simp]
theorem compare_constraints : compare (constraint c k) (constraint d l) = (compare c d).then (compare k l) := rfl

@[simp]
theorem compare_cuts : compare (cut i) (cut j) = compare i j := rfl

@[simp]
theorem compare_constraint_cut : compare (constraint c k) (cut i) = .lt := rfl

@[simp]
theorem compare_cut_constraint : compare (cut i) (constraint c k) = .gt := rfl

instance : Std.OrientedOrd RowKey where
  eq_swap {a b} := by cases a <;> cases b <;> simp [Ordering.swap_then, Nat.compare_swap]

instance : Std.LawfulEqOrd RowKey where
  compare_self {a} := by cases a <;> simp
  eq_of_compare {a b} h := by cases a <;> cases b <;> simp_all [Ordering.then_eq_eq]

instance : Std.TransOrd RowKey where
  isLE_trans {a b c} hab hbc := by
    cases a <;> cases b <;> cases c <;>
      simp [Ordering.isLE_then_iff_or, Nat.isLE_compare, Nat.compare_eq_lt] at hab hbc ⊢ <;> grind

end RowKey

namespace KeyedSimplex

variable {K : Type} {o : KeyedSimplex K} {key : RowKey} {r : Row K} {pos : Nat}

/-- Every row stands at the position that is recorded for its key. -/
def Aligned (o : KeyedSimplex K) : Prop := Located (o.rows.map Prod.fst) (fun _ => True) o.position?

theorem Aligned.empty (settings : Lp.Settings K) : Aligned { settings } := fun p x => by
  simp [position?]

theorem Aligned.of_eq (h : o.Aligned) {u : KeyedSimplex K} (hrows : u.rows = o.rows)
    (hpositions : u.positions = o.positions) : u.Aligned := by
  unfold Aligned position? at *
  rw [hrows, hpositions]
  exact h

theorem row?_of_eq {u : KeyedSimplex K} (hrows : u.rows = o.rows) (hpositions : u.positions = o.positions) :
    u.row? key = o.row? key := by
  unfold row? position?
  rw [hrows, hpositions]

theorem hasRow_eq (o : KeyedSimplex K) (key : RowKey) : o.hasRow key = (o.position? key).isSome :=
  Std.TreeMap.contains_eq_isSome_getElem?

namespace Aligned

theorem position?_iff (h : o.Aligned) : o.position? key = some pos ↔ ∃ r, o.rows[pos]? = some (key, r) := by
  rw [← true_and (o.position? key = some pos), ← h pos key, Array.getElem?_map, Option.map_eq_some_iff]
  constructor
  · rintro ⟨⟨k, r⟩, hrow, rfl⟩
    exact ⟨r, hrow⟩
  · rintro ⟨r, hrow⟩
    exact ⟨_, hrow, rfl⟩

theorem position?_eq (h : o.Aligned) (hrow : o.rows[pos]? = some (key, r)) : o.position? key = some pos :=
  h.position?_iff.mpr ⟨r, hrow⟩

theorem row?_iff (h : o.Aligned) : o.row? key = some r ↔ ∃ pos : Nat, o.rows[pos]? = some (key, r) := by
  unfold row?
  rw [Option.bind_eq_some_iff]
  constructor
  · rintro ⟨pos, hpos, hr⟩
    obtain ⟨r', hrow⟩ := h.position?_iff.mp hpos
    rw [hrow, Option.map_some, Option.some.injEq] at hr
    exact ⟨pos, hr ▸ hrow⟩
  · rintro ⟨pos, hrow⟩
    exact ⟨pos, h.position?_eq hrow, by rw [hrow, Option.map_some]⟩

theorem row?_eq_some (h : o.Aligned) (hrow : o.rows[pos]? = some (key, r)) : o.row? key = some r :=
  h.row?_iff.mpr ⟨pos, hrow⟩

/-- The rows are those that are found by their keys. -/
theorem mem_rows (h : o.Aligned) : (key, r) ∈ o.rows ↔ o.row? key = some r := by
  rw [h.row?_iff, Array.mem_iff_getElem?]

theorem isSome_row? (h : o.Aligned) (key : RowKey) : (o.row? key).isSome = o.hasRow key := by
  rw [hasRow_eq]
  cases hpos : o.position? key with
  | none =>
    rw [row?, hpos]
    rfl
  | some pos =>
    obtain ⟨r, hrow⟩ := h.position?_iff.mp hpos
    rw [h.row?_eq_some hrow]
    rfl

/-- No key occurs twice. -/
theorem nodup_keys (h : o.Aligned) : (o.rows.toList.map Prod.fst).Nodup := by
  rw [← Array.toList_map, List.nodup_iff_injective_get]
  intro i j hij
  refine Fin.ext (Option.some.inj ?_)
  rw [List.get_eq_getElem, List.get_eq_getElem, Array.getElem_toList, Array.getElem_toList] at hij
  rw [← ((h i _).mp (Array.getElem?_eq_getElem i.2)).2, ← ((h j _).mp (Array.getElem?_eq_getElem j.2)).2, hij]

end Aligned

theorem row?_eq_none (hpos : o.position? key = none) : o.row? key = none := by rw [row?, hpos, Option.bind_none]

/-! ## Changes to a row -/

theorem Aligned.modifyRow (h : o.Aligned) (pos : Nat) (f : Row K → Row K) : (o.modifyRow pos f).Aligned := by
  have hkeys : (o.modifyRow pos f).rows.map Prod.fst = o.rows.map Prod.fst := by
    refine Array.ext_getElem? fun i => ?_
    unfold KeyedSimplex.modifyRow
    rw [Array.getElem?_map, Array.getElem?_map, Array.getElem?_modify]
    split
    · rw [Option.map_map]
      rfl
    · rfl
  unfold Aligned
  rw [hkeys]
  exact h

theorem Aligned.row?_modifyRow (h : o.Aligned) (hpos : o.position? key = some pos) (f : Row K → Row K) (k : RowKey) :
    (o.modifyRow pos f).row? k = if k = key then (o.row? key).map f else o.row? k := by
  show (o.position? k).bind (fun p => (o.rows.modify pos _)[p]?.map Prod.snd) = _
  split
  · next hk =>
    subst hk
    rw [row?, hpos, Option.bind_some, Option.bind_some, Array.getElem?_modify, if_pos rfl, Option.map_map,
      Option.map_map]
    rfl
  · next hk =>
    rw [row?]
    refine Option.bind_congr fun p hp => ?_
    rw [Array.getElem?_modify, if_neg]
    rintro rfl
    obtain ⟨r, hrow⟩ := h.position?_iff.mp hpos
    obtain ⟨r', hrow'⟩ := h.position?_iff.mp hp
    rw [hrow, Option.some.injEq, Prod.mk.injEq] at hrow'
    exact hk hrow'.1.symm

/-! ## Putting a row -/

theorem Aligned.putRow (h : o.Aligned) (entry : RowKey × Row K) : (o.putRow entry).Aligned := by
  unfold KeyedSimplex.putRow
  cases hpos : o.position? entry.1 with
  | some pos => exact h.modifyRow pos _
  | none =>
    refine Located.congr (Array.map_push (f := Prod.fst) ▸ Located.push h trivial hpos) fun k _ => ?_
    show (o.positions.insert entry.1 o.rows.size)[k]? = _
    simp only [Std.TreeMap.getElem?_insert, Std.compare_eq_iff_eq, eq_comm (a := entry.1), Array.size_map]
    rfl

theorem Aligned.row?_putRow (h : o.Aligned) (entry : RowKey × Row K) (key : RowKey) :
    (o.putRow entry).row? key = if key = entry.1 then some entry.2 else o.row? key := by
  have hput := h.putRow entry
  revert hput
  unfold KeyedSimplex.putRow
  cases hpos : o.position? entry.1 with
  | some pos =>
    obtain ⟨r, hrow⟩ := h.position?_iff.mp hpos
    intro hput
    dsimp only
    rw [h.row?_modifyRow hpos, h.row?_eq_some hrow, Option.map_some]
  | none =>
    intro hput
    refine Option.ext fun r => ?_
    rw [← hput.mem_rows, Array.mem_push, h.mem_rows]
    split
    · next hkey =>
      rw [hkey, row?_eq_none hpos, Option.some.injEq, or_iff_right nofun]
      exact ⟨fun heq => (congrArg Prod.snd heq).symm, fun heq => heq ▸ rfl⟩
    · next hkey => exact or_iff_left fun heq => hkey (congrArg Prod.fst heq)

/-! ## Removing a row -/

theorem removeRow_rows (hpos : o.position? key = some pos) : (o.removeRow key).rows = swapRemove o.rows pos := by
  unfold removeRow
  rw [hpos]
  dsimp only
  split <;> rfl

/-- The row that was the last moves to the free position. -/
theorem Aligned.position?_removeRow (h : o.Aligned) (hpos : o.position? key = some pos) (k : RowKey) :
    (o.removeRow key).position? k = if k = key then none
      else if (o.rows.map Prod.fst)[(o.rows.map Prod.fst).size - 1]? = some k then some pos else o.position? k := by
  obtain ⟨r, hrow⟩ := h.position?_iff.mp hpos
  have hlt := (Array.getElem?_eq_some_iff.mp hrow).1
  rw [Array.size_map, Array.getElem?_map]
  unfold KeyedSimplex.removeRow
  rw [hpos]
  dsimp only
  rw [getElem?_swapRemove hlt, if_pos rfl]
  by_cases hlast : pos + 1 < o.rows.size
  · rw [if_pos hlast]
    obtain ⟨moved, hmoved⟩ : ∃ moved, o.rows[o.rows.size - 1]? = some moved :=
      ⟨_, Array.getElem?_eq_getElem (by omega)⟩
    have hne : moved.1 ≠ key := by
      rintro rfl
      have := Option.some.inj ((h.position?_eq hmoved).symm.trans hpos)
      omega
    rw [hmoved]
    dsimp only
    simp only [position?, Std.TreeMap.getElem?_insert, Std.TreeMap.getElem?_erase, Std.compare_eq_iff_eq,
      Option.map_some, Option.some.injEq]
    by_cases hk : k = key
    · rw [if_pos hk, if_pos hk.symm, if_neg fun heq => hne (heq.trans hk)]
    · have hk' : ¬ key = k := fun heq => hk heq.symm
      rw [if_neg hk, if_neg hk']
  · rw [if_neg hlast]
    dsimp only
    rw [show o.rows.size - 1 = pos by omega, hrow]
    simp only [position?, Std.TreeMap.getElem?_erase, Std.compare_eq_iff_eq, Option.map_some, Option.some.injEq]
    by_cases hk : k = key
    · rw [if_pos hk, if_pos hk.symm]
    · rw [if_neg hk, if_neg fun heq => hk heq.symm, if_neg fun heq => hk heq.symm]

theorem Aligned.removeRow (h : o.Aligned) (key : RowKey) : (o.removeRow key).Aligned := by
  cases hpos : o.position? key with
  | none =>
    rw [KeyedSimplex.removeRow, hpos]
    exact h
  | some pos =>
    obtain ⟨r, hrow⟩ := h.position?_iff.mp hpos
    unfold Aligned
    rw [removeRow_rows hpos, map_swapRemove]
    refine (Located.swapRemove h ?_).congr fun k _ => h.position?_removeRow hpos k
    rw [Array.getElem?_map, hrow, Option.map_some]

theorem Aligned.row?_removeRow (h : o.Aligned) (key k : RowKey) :
    (o.removeRow key).row? k = if k = key then none else o.row? k := by
  cases hpos : o.position? key with
  | none =>
    rw [KeyedSimplex.removeRow, hpos]
    dsimp only
    split
    · next hk => rw [hk, row?_eq_none hpos]
    · rfl
  | some pos =>
    obtain ⟨r, hrow⟩ := h.position?_iff.mp hpos
    refine Option.ext fun r' => ?_
    rw [(h.removeRow key).row?_iff, removeRow_rows hpos,
      exists_getElem?_swapRemove (Array.getElem?_eq_some_iff.mp hrow).1]
    split
    · next hk =>
      refine iff_of_false ?_ nofun
      rintro ⟨p, hne, hp⟩
      exact hne (Option.some.inj ((h.position?_eq (hk ▸ hp)).symm.trans hpos))
    · next hk =>
      rw [h.row?_iff]
      refine exists_congr fun p => and_iff_right_of_imp ?_
      rintro hp rfl
      rw [hrow, Option.some.injEq, Prod.mk.injEq] at hp
      exact hk hp.1.symm

/-! ## Adding a column -/

section Columns

variable [Scalar K]

theorem Aligned.addEntry (h : o.Aligned) (v : VarId) (entry : RowKey × K) :
    (KeyedSimplex.addEntry v o entry).Aligned := by
  unfold KeyedSimplex.addEntry
  split
  · exact h.modifyRow _ _
  · exact h

theorem Aligned.row?_addEntry (h : o.Aligned) (v : VarId) (entry : RowKey × K) (key : RowKey) :
    (KeyedSimplex.addEntry v o entry).row? key =
      if key = entry.1 then (o.row? key).map (·.addCoef v entry.2) else o.row? key := by
  unfold KeyedSimplex.addEntry
  cases hpos : o.position? entry.1 with
  | some pos =>
    dsimp only
    rw [h.row?_modifyRow hpos]
    split
    · next hkey => rw [hkey]
    · rfl
  | none =>
    dsimp only
    split
    · next hkey => rw [hkey, row?_eq_none hpos, Option.map_none]
    · rfl

/-- What the coefficients of a column make of the row with a key. -/
def extended (v : VarId) (entries : List (RowKey × K)) (key : RowKey) (r : Row K) : Row K :=
  entries.foldl (fun r entry => if key = entry.1 then r.addCoef v entry.2 else r) r

theorem mem_addTo {v : VarId} {a : K} {coefs : List (VarId × K)} {e : VarId × K} (he : e ∈ Row.addTo v a coefs) :
    e.1 = v ∨ ∃ e' ∈ coefs, e'.1 = e.1 := by
  obtain ⟨old, b, -, after, hcoefs, heq⟩ := Row.addTo_eq v a coefs
  rw [heq] at he
  rcases List.mem_append.mp he with he | hafter
  · rcases List.mem_append.mp he with hbefore | hnew
    · exact .inr ⟨e, List.mem_of_mem_take hbefore, rfl⟩
    · exact .inl (congrArg Prod.fst (Row.mem_entry hnew))
  · exact .inr ⟨e, hcoefs ▸ List.mem_append_right _ hafter, rfl⟩

theorem mem_extended {v : VarId} {entries : List (RowKey × K)} {e : VarId × K}
    (he : e ∈ (extended v entries key r).coefs) : e.1 = v ∨ ∃ e' ∈ r.coefs, e'.1 = e.1 := by
  induction entries generalizing r with
  | nil => exact .inr ⟨e, he, rfl⟩
  | cons entry entries ih =>
    rcases ih he with hv | ⟨e', he', hvar⟩
    · exact .inl hv
    · dsimp only at he'
      split at he'
      · rcases mem_addTo he' with hv | ⟨e'', he'', hvar'⟩
        · exact .inl (hvar ▸ hv)
        · exact .inr ⟨e'', he'', hvar'.trans hvar⟩
      · exact .inr ⟨e', he', hvar⟩

theorem Aligned.foldl_addEntry (h : o.Aligned) (v : VarId) (entries : List (RowKey × K)) :
    (entries.foldl (KeyedSimplex.addEntry v) o).Aligned ∧ ∀ key,
      (entries.foldl (KeyedSimplex.addEntry v) o).row? key = (o.row? key).map (extended v entries key) := by
  induction entries generalizing o with
  | nil => exact ⟨h, fun key => Option.map_id'.symm⟩
  | cons entry entries ih =>
    obtain ⟨haligned, hrow⟩ := ih (h.addEntry v entry)
    refine ⟨haligned, fun key => (hrow key).trans ?_⟩
    rw [h.row?_addEntry]
    unfold extended
    by_cases hkey : key = entry.1
    · simp only [if_pos hkey, Option.map_map, List.foldl_cons]
      rfl
    · simp only [if_neg hkey, List.foldl_cons]

theorem Aligned.pushColumn (h : o.Aligned) (col : NewColumn K) : (o.pushColumn col).Aligned :=
  (Aligned.foldl_addEntry (o := o.pushCost col.cost) h col.var col.entries).1

theorem Aligned.row?_pushColumn (h : o.Aligned) (col : NewColumn K) (key : RowKey) :
    (o.pushColumn col).row? key = (o.row? key).map (extended col.var col.entries key) :=
  (Aligned.foldl_addEntry (o := o.pushCost col.cost) h col.var col.entries).2 key

end Columns

/-! ## What changes to the rows leave alone -/

/-- The oracle without its rows. -/
def rowless (o : KeyedSimplex K) : KeyedSimplex K := { o with rows := #[], positions := ∅ }

theorem rowless_putRow (o : KeyedSimplex K) (entry : RowKey × Row K) : (o.putRow entry).rowless = o.rowless := by
  unfold putRow
  split <;> rfl

theorem rowless_removeRow (o : KeyedSimplex K) (key : RowKey) : (o.removeRow key).rowless = o.rowless := by
  unfold removeRow
  split
  · rfl
  · dsimp only
    split <;> rfl

theorem rowless_addEntry [Scalar K] (v : VarId) (o : KeyedSimplex K) (entry : RowKey × K) :
    (addEntry v o entry).rowless = o.rowless := by
  unfold addEntry
  split <;> rfl

/-- What every step keeps. -/
theorem foldl_keeps {α β : Type} {f : KeyedSimplex K → α → KeyedSimplex K} (g : KeyedSimplex K → β)
    (hf : ∀ o x, g (f o x) = g o) (o : KeyedSimplex K) (xs : List α) : g (xs.foldl f o) = g o := by
  induction xs generalizing o with
  | nil => rfl
  | cons x xs ih => exact (ih (f o x)).trans (hf o x)

theorem rowless_pushColumn [Scalar K] (o : KeyedSimplex K) (col : NewColumn K) :
    (o.pushColumn col).rowless = (o.pushCost col.cost).rowless :=
  foldl_keeps rowless (rowless_addEntry col.var) _ _

end KeyedSimplex

end BranchAndCut

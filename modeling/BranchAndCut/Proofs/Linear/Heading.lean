import BranchAndCut.Linear.Tableau
import BranchAndCut.Proofs.Arrays
import BranchAndCut.Proofs.Order

/-! # The heading of a tableau

Which columns end up basic is a matter of the heading alone: elimination gives each column
asked for a row that has none yet, a pivot changes the column of one row. Nothing here
depends on how numbers are rounded, and for the slack columns, which hold nothing but
minus one in their own row, elimination cannot fail. -/

namespace BranchAndCut

/-- Minus one is a pivot beside zeros. -/
class Scalar.UnitPivot (K : Type) [Scalar K] : Prop where
  zero_beq_zero : ((0 : K) == 0) = true
  zero_lt_abs : (0 : K) < Scalar.abs (-1)
  not_zero_lt_abs : ¬ (0 : K) < Scalar.abs 0

instance : Scalar.UnitPivot Float where
  zero_beq_zero := by decide +kernel
  zero_lt_abs := by decide +kernel
  not_zero_lt_abs := by decide +kernel

instance {F : Type} [Field F] [LinearOrder F] [IsStrictOrderedRing F] [FloorRing F] [Rooted F] :
    Scalar.UnitPivot (Exact F) where
  zero_beq_zero := by rw [Exact.zero_def, Exact.fin_beq]; simp
  zero_lt_abs := by rw [Exact.zero_def, Exact.one_def, Exact.fin_neg, Exact.abs_fin]; simp
  not_zero_lt_abs := by rw [Exact.zero_def, Exact.abs_fin]; simp

namespace Tableau

variable {K : Type} {t : Tableau K} {i j r : Nat}

/-- Every row has a basic column. -/
def Complete (t : Tableau K) : Prop :=
  ∀ i < t.rows.size, t.head.getD i none = some (t.basicColumn i)

/-- The column is basic in some row. -/
def InBasis (t : Tableau K) (j : Nat) : Prop := ∃ i < t.rows.size, t.basicColumn i = j

instance (t : Tableau K) (j : Nat) : Decidable (t.InBasis j) :=
  inferInstanceAs (Decidable (∃ i < t.rows.size, t.basicColumn i = j))

theorem basis_eq_map (hsize : t.head.size = t.rows.size) :
    t.basis = (List.range t.rows.size).map t.basicColumn := by
  refine List.ext_getElem (by simp [basis, hsize]) fun i hi _ => ?_
  have hi' : i < t.head.size := by simpa [basis] using hi
  simp [basis, basicColumn, hi']

theorem mem_basis (hsize : t.head.size = t.rows.size) : j ∈ t.basis ↔ t.InBasis j := by
  rw [basis_eq_map hsize]
  simp [InBasis]

/-- The basic columns that have been assigned. -/
def assigned (t : Tableau K) : List Nat := t.head.toList.filterMap id

/-- Where all rows are assigned, the basis is what was assigned. -/
theorem complete_of_assigned {cols : List Nat} (hsize : t.head.size = t.rows.size)
    (hperm : t.assigned.Perm cols) (hlength : cols.length = t.rows.size) :
    t.Complete ∧ ∀ j, t.InBasis j ↔ j ∈ cols := by
  have hall : ∀ b ∈ t.head.toList, (id b).isSome := by
    refine List.filterMap_length_eq_length.mp ?_
    exact hperm.length_eq.trans (hlength.trans (hsize.symm.trans Array.length_toList.symm))
  have hc : t.Complete := by
    intro i hi
    have hi' : i < t.head.size := hsize.symm ▸ hi
    obtain ⟨b, hb⟩ := Option.isSome_iff_exists.mp (hall t.head[i] (by simp))
    have hhead : t.head[i] = some b := hb
    simp [basicColumn, hi', hhead]
  refine ⟨hc, fun j => ?_⟩
  rw [← hperm.mem_iff]
  unfold assigned InBasis
  rw [List.mem_filterMap]
  constructor
  · rintro ⟨i, hi, rfl⟩
    have hi' : i < t.head.size := hsize.symm ▸ hi
    refine ⟨t.head.getD i none, by simp [hi'], hc i hi⟩
  · rintro ⟨b, hb, hbj⟩
    obtain ⟨i, hi, rfl⟩ := List.mem_iff_getElem.mp hb
    have hi' : i < t.head.size := by simpa using hi
    refine ⟨i, hsize ▸ hi', ?_⟩
    have hhead : t.head[i] = some j := by simpa using hbj
    simp [basicColumn, hi', hhead]

/-- The constraint rows before elimination. -/
def start (base : Array (Array K)) : Tableau K :=
  { rows := base, head := Array.replicate base.size none }

variable [Scalar K]

/-! ## One pivot -/

theorem pivot_rows_size (t : Tableau K) (r j : Nat) : (t.pivot r j).rows.size = t.rows.size := by
  simp [pivot]

theorem pivot_head_size (t : Tableau K) (r j : Nat) : (t.pivot r j).head.size = t.head.size := by
  simp [pivot]

theorem pivot_head (hr : r < t.head.size) (i : Nat) :
    (t.pivot r j).head.getD i none = if i = r then some j else t.head.getD i none := by
  have hhead : (t.pivot r j).head.getD i none = if i = r ∧ r < t.head.size then some j
      else t.head.getD i none := getD_setIfInBounds _ _ _ _ _
  simpa only [hr, and_true] using hhead

theorem pivot_basicColumn (hr : r < t.head.size) (i : Nat) :
    (t.pivot r j).basicColumn i = if i = r then j else t.basicColumn i := by
  unfold basicColumn
  rw [pivot_head hr]
  by_cases hir : i = r
  · rw [if_pos hir, if_pos hir]
    rfl
  · rw [if_neg hir, if_neg hir]

theorem Complete.pivot (hc : t.Complete) (hsize : t.head.size = t.rows.size)
    (hr : r < t.rows.size) : (t.pivot r j).Complete := by
  intro i hi
  have hr' : r < t.head.size := hsize.symm ▸ hr
  rw [pivot_rows_size] at hi
  rw [pivot_head hr', pivot_basicColumn hr']
  by_cases hir : i = r
  · rw [if_pos hir, if_pos hir]
  · rw [if_neg hir, if_neg hir, hc i hi]

/-! ## Elimination -/

/-- The row chosen has no column yet and a large enough entry; without such a row
there is no choice. -/
theorem choosePivotRow?_spec [IsTrans K (· < ·)] (t : Tableau K) (j : Nat) (tolPivot : K) :
    (∀ r, t.choosePivotRow? j tolPivot = some r →
        r < t.rows.size ∧ t.head.getD r none = none ∧ tolPivot < Scalar.abs (t.get r j)) ∧
      (t.choosePivotRow? j tolPivot = none → ∀ r < t.rows.size, t.head.getD r none = none →
        ¬ tolPivot < Scalar.abs (t.get r j)) := by
  let good : Nat → Option Nat × K → Prop := fun n best =>
    (∀ r, best.1 = some r → r < t.rows.size ∧ t.head.getD r none = none ∧
      tolPivot < Scalar.abs (t.get r j) ∧ best.2 = Scalar.abs (t.get r j)) ∧
    (best.1 = none → best.2 = tolPivot ∧ ∀ r < n, t.head.getD r none = none →
      ¬ tolPivot < Scalar.abs (t.get r j))
  have hgood : good t.rows.size ((List.range t.rows.size).foldl (fun best r =>
      if (t.head.getD r none).isSome then best
      else if best.2 < Scalar.abs (t.get r j) then (some r, Scalar.abs (t.get r j)) else best)
      (none, tolPivot)) := by
    refine foldl_range_induction good ⟨nofun, fun _ => ⟨rfl, nofun⟩⟩ ?_
    rintro k hk ⟨best, size⟩ ⟨hsome, hnone⟩
    -- a row that is passed over leaves the choice alone
    have hpass : (t.head.getD k none = none → best = none → ¬ tolPivot < Scalar.abs (t.get k j)) →
        good (k + 1) (best, size) := by
      refine fun hk' => ⟨hsome, fun hbest => ⟨(hnone hbest).1, fun r hr hfree => ?_⟩⟩
      rcases Nat.lt_succ_iff_lt_or_eq.mp hr with hlt | rfl
      · exact (hnone hbest).2 r hlt hfree
      · exact hk' hfree hbest
    dsimp only
    split_ifs with hassigned hlarger
    · exact hpass fun hfree => by simp [hfree] at hassigned
    · refine ⟨fun r hr => ?_, nofun⟩
      obtain rfl := Option.some.inj hr
      have htol : tolPivot < Scalar.abs (t.get k j) := by
        cases hbest : best with
        | none => exact (hnone hbest).1 ▸ hlarger
        | some r =>
          obtain ⟨-, -, hless, heq⟩ := hsome r hbest
          dsimp only at heq
          rw [heq] at hlarger
          exact IsTrans.trans _ _ _ hless hlarger
      exact ⟨hk, by simpa using hassigned, htol, rfl⟩
    · exact hpass fun _ hbest => (hnone hbest).1 ▸ hlarger
  refine ⟨fun r hr => ?_, fun hnone => (hgood.2 hnone).2⟩
  obtain ⟨hlt, hfree, hless, -⟩ := hgood.1 r hr
  exact ⟨hlt, hfree, hless⟩

theorem filterMap_set_perm {l : List (Option Nat)} (hr : l[r]? = some none) :
    ((l.set r (some j)).filterMap id).Perm (j :: l.filterMap id) := by
  induction l generalizing r with
  | nil => simp at hr
  | cons a l ih =>
    cases r with
    | zero =>
      obtain rfl : a = none := by simpa using hr
      simp
    | succ r =>
      have hperm := ih (r := r) (by simpa using hr)
      cases a with
      | none => simpa using hperm
      | some b =>
        simp only [List.set_cons_succ, List.filterMap_cons, id_eq]
        exact (hperm.cons b).trans (.swap j b _)

theorem assigned_pivot (hr : r < t.head.size) (hfree : t.head.getD r none = none) :
    (t.pivot r j).assigned.Perm (j :: t.assigned) := by
  unfold assigned pivot
  dsimp only
  rw [Array.toList_setIfInBounds]
  refine filterMap_set_perm ?_
  rw [Array.getElem?_toList, Array.getElem?_eq_getElem hr]
  simpa [hr] using hfree

/-- Elimination column by column, from any tableau. -/
theorem factor?_eq (base : Array (Array K)) (basic : List Nat) (tolPivot : K) :
    factor? base basic tolPivot = if basic.length ≠ base.size then none
      else basic.foldlM (fun t j => (t.choosePivotRow? j tolPivot).map fun r => t.pivot r j)
        (start base) := rfl

/-- **What elimination keeps.** A property of the constraint rows that is kept by every
pivot it may make holds of the tableau it gives; the columns asked for are basic there. -/
theorem factor?_induction [IsTrans K (· < ·)] {base : Array (Array K)} {basic : List Nat}
    {tolPivot : K} (P : Tableau K → Prop) (hstart : P (start base))
    (hpivot : ∀ u r j, P u → r < u.rows.size → u.head.getD r none = none →
      tolPivot < Scalar.abs (u.get r j) → P (u.pivot r j))
    (hfactor : factor? base basic tolPivot = some t) :
    P t ∧ t.rows.size = base.size ∧ t.head.size = t.rows.size ∧ t.Complete ∧
      ∀ j, t.InBasis j ↔ j ∈ basic := by
  have hrun : ∀ (cols : List Nat) (u : Tableau K), P u → u.rows.size = base.size →
      u.head.size = u.rows.size →
      cols.foldlM (fun u j => (u.choosePivotRow? j tolPivot).map fun r => u.pivot r j) u = some t →
      P t ∧ t.rows.size = base.size ∧ t.head.size = t.rows.size ∧
        t.assigned.Perm (cols.reverse ++ u.assigned) := by
    intro cols
    induction cols with
    | nil =>
      intro u hu hrows hhead hsome
      obtain rfl := Option.some.inj hsome
      exact ⟨hu, hrows, hhead, .refl _⟩
    | cons j cols ih =>
      intro u hu hrows hhead hsome
      rw [List.foldlM_cons] at hsome
      obtain ⟨_, hfound, hrest⟩ := Option.bind_eq_some_iff.mp hsome
      obtain ⟨r, hchoose, rfl⟩ := Option.map_eq_some_iff.mp hfound
      obtain ⟨hr, hfree, hlarge⟩ := (choosePivotRow?_spec u j tolPivot).1 r hchoose
      obtain ⟨ht, hrows', hhead', hperm⟩ := ih _ (hpivot u r j hu hr hfree hlarge)
        ((pivot_rows_size u r j).trans hrows)
        (by rw [pivot_rows_size, pivot_head_size, hhead]) hrest
      refine ⟨ht, hrows', hhead', hperm.trans ?_⟩
      rw [List.reverse_cons, List.append_assoc]
      exact (assigned_pivot (hhead.symm ▸ hr) hfree).append_left _
  rw [factor?_eq] at hfactor
  split_ifs at hfactor with hlength
  obtain ⟨ht, hrows, hhead, hperm⟩ :=
    hrun basic (start base) hstart rfl (by simp [start]) hfactor
  have hnone : (start base).assigned = [] := by simp [start, assigned]
  rw [hnone, List.append_nil] at hperm
  obtain ⟨hc, hmem⟩ := complete_of_assigned hhead (hperm.trans basic.reverse_perm)
    ((not_not.mp hlength).trans hrows.symm)
  exact ⟨ht, hrows, hhead, hc, hmem⟩

theorem factor?_inBasis [IsTrans K (· < ·)] {base : Array (Array K)} {basic : List Nat}
    {tolPivot : K} (h : factor? base basic tolPivot = some t) (j : Nat) : t.InBasis j ↔ j ∈ basic :=
  (factor?_induction (fun _ => True) trivial (fun _ _ _ _ _ _ _ => trivial) h).2.2.2.2 j

/-! ## The slack basis -/

/-- The columns from `n` on are those of a negative identity. -/
def EndsInSlacks (n : Nat) (base : Array (Array K)) : Prop :=
  ∀ i < base.size, ∀ k < base.size, (base.getD i #[]).getD (n + k) 0 = if k = i then -1 else 0

/-- **The slack basis can always be factored.** -/
theorem EndsInSlacks.factor?_isSome [IsTrans K (· < ·)] [Scalar.UnitPivot K] {n : Nat}
    {base : Array (Array K)} (h : EndsInSlacks n base) :
    (factor? base ((List.range base.size).map (n + ·)) 0).isSome := by
  -- the first slacks have their own rows, the other rows are as they were
  let good : Nat → Tableau K → Prop := fun l t =>
    t.rows.size = base.size ∧ t.head.size = base.size ∧
      (∀ i < base.size, t.head.getD i none = if i < l then some (n + i) else none) ∧
      ∀ i < base.size, l ≤ i → t.rows.getD i #[] = base.getD i #[]
  have hrun : ∀ l ≤ base.size, ∃ t, ((List.range l).map (n + ·)).foldlM
      (fun t j => (t.choosePivotRow? j 0).map fun r => t.pivot r j) (start base) = some t ∧
        good l t := by
    intro l
    induction l with
    | zero =>
      refine fun _ => ⟨start base, rfl, rfl, by simp [start], fun i hi => ?_, fun _ _ _ => rfl⟩
      simp [start, hi]
    | succ l ih =>
      intro hl
      have hl' : l < base.size := hl
      obtain ⟨t, hfold, hrows, hhead, hcols, hrest⟩ := ih (Nat.le_of_lt hl)
      have hget : ∀ i < base.size, l ≤ i → t.get i (n + l) = if l = i then -1 else 0 := by
        intro i hi hle
        unfold get
        rw [hrest i hi hle, h i hi l hl']
      have hspec := choosePivotRow?_spec t (n + l) (0 : K)
      have hchoose : t.choosePivotRow? (n + l) 0 = some l := by
        cases hfound : t.choosePivotRow? (n + l) 0 with
        | none =>
          have hsmall := hspec.2 hfound l (hrows.symm ▸ hl')
            ((hcols l hl').trans (if_neg (Nat.lt_irrefl l)))
          rw [hget l hl' (Nat.le_refl l), if_pos rfl] at hsmall
          exact (hsmall Scalar.UnitPivot.zero_lt_abs).elim
        | some r =>
          obtain ⟨hr, hfree, hlarge⟩ := hspec.1 r hfound
          rw [hrows] at hr
          have hle : l ≤ r := by
            by_contra hlt
            rw [hcols r hr, if_pos (not_le.mp hlt)] at hfree
            cases hfree
          rw [hget r hr hle] at hlarge
          by_cases hlr : l = r
          · rw [hlr]
          · rw [if_neg hlr] at hlarge
            exact (Scalar.UnitPivot.not_zero_lt_abs hlarge).elim
      refine ⟨t.pivot l (n + l), ?_, (pivot_rows_size t _ _).trans hrows,
        (pivot_head_size t _ _).trans hhead, fun i hi => ?_, fun i hi hle => ?_⟩
      · rw [List.range_succ, List.map_append, List.foldlM_append, hfold]
        simp [hchoose]
      · rw [pivot_head (hhead.symm ▸ hl'), hcols i hi]
        by_cases hil : i = l
        · rw [if_pos hil, if_pos (by omega), hil]
        · rw [if_neg hil]
          exact if_congr (by omega) rfl rfl
      · have hzero : (t.rows.getD i #[]).getD (n + l) 0 = 0 :=
          (hget i hi (by omega)).trans (if_neg (by omega))
        have hrow : (t.pivot l (n + l)).rows.getD i #[] =
            clearedRow (t.rows.getD i #[]) (scaledRow (t.rows.getD l #[]) (n + l)) (n + l) := by
          refine (getD_mapIdx _ _ _ #[] _).trans ?_
          rw [if_pos (hrows.symm ▸ hi), if_neg (by omega)]
        rw [hrow, clearedRow, hzero, if_pos Scalar.UnitPivot.zero_beq_zero]
        exact hrest i hi (by omega)
  obtain ⟨t, hfold, -⟩ := hrun base.size (Nat.le_refl _)
  rw [factor?_eq, if_neg (by simp), hfold]
  rfl

end Tableau

end BranchAndCut

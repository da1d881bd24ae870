import BranchAndCut.Constraint.Linear
import BranchAndCut.Proofs.Arrays
import BranchAndCut.Proofs.Constraint.Sos1

/-! # Moves in unlocked directions

A table counts the locks of every constraint that was added, in whatever order and among
whatever others. So the values of any number of variables may be moved at once, each in a
direction that the table shows free: no side of a row and no special ordered set whose locks
are counted is violated by more than before. -/

namespace BranchAndCut

namespace LockTable

variable {t : LockTable} {locks : List Lock} {v : VarId}

theorem getD_bump (counts : Array Nat) (i k : Nat) (locked : Bool) :
    (bump counts i locked).getD k 0 = counts.getD k 0 + if i = k then locked.toNat else 0 := by
  unfold bump
  rw [getD_modify, getD_append, getD_replicate, Array.size_append, Array.size_replicate]
  have hpast : ¬ k < counts.size → counts.getD k 0 = 0 := fun h => getD_of_size_le _ _ (Nat.le_of_not_lt h)
  split_ifs <;> omega

theorem getD_foldl_bump (locked : Lock → Bool) (counts : Array Nat) (locks : List Lock) (v : VarId) :
    (locks.foldl (fun counts l => bump counts l.var (locked l)) counts).getD v 0 =
      counts.getD v 0 + locks.countP fun l => locked l && l.var == v := by
  induction locks generalizing counts with
  | nil => simp
  | cons l locks ih =>
    rw [List.foldl_cons, ih, getD_bump, List.countP_cons, Nat.add_assoc]
    by_cases hv : l.var = v <;> cases hl : locked l <;> simp [hv, Nat.add_comm]

theorem add_eq (t : LockTable) (locks : List Lock) :
    t.add locks = {
      downs := locks.foldl (fun counts l => bump counts l.var l.down) t.downs
      ups := locks.foldl (fun counts l => bump counts l.var l.up) t.ups } := by
  induction locks generalizing t with
  | nil => rfl
  | cons l locks ih => exact ih _

/-- The number of locks on moving down grows by those that are added. -/
theorem down_add (t : LockTable) (locks : List Lock) (v : VarId) :
    (t.add locks).down v = t.down v + locks.countP fun l => l.down && l.var == v := by
  rw [add_eq]
  exact getD_foldl_bump Lock.down t.downs locks v

theorem up_add (t : LockTable) (locks : List Lock) (v : VarId) :
    (t.add locks).up v = t.up v + locks.countP fun l => l.up && l.var == v := by
  rw [add_eq]
  exact getD_foldl_bump Lock.up t.ups locks v

theorem foldl_add (t : LockTable) (added : List (List Lock)) :
    added.foldl add t = t.add added.flatten := List.foldl_flatten.symm

/-- Every one of these locks is counted. -/
structure Counts (t : LockTable) (locks : List Lock) : Prop where
  down : ∀ l ∈ locks, l.down = true → 0 < t.down l.var
  up : ∀ l ∈ locks, l.up = true → 0 < t.up l.var

/-- **What was added is counted**, whatever the table started with and whatever was added
before or after. -/
theorem counts_foldl_add (start : LockTable) {added : List (List Lock)} (h : locks ∈ added) :
    (added.foldl add start).Counts locks := by
  have hmem : ∀ l ∈ locks, l ∈ added.flatten := fun l hl => List.mem_flatten_of_mem h hl
  rw [foldl_add]
  constructor
  · intro l hl hdown
    rw [down_add]
    exact Nat.add_pos_right _ (List.countP_pos_iff.mpr ⟨l, hmem l hl, by simp [hdown]⟩)
  · intro l hl hup
    rw [up_add]
    exact Nat.add_pos_right _ (List.countP_pos_iff.mpr ⟨l, hmem l hl, by simp [hup]⟩)

theorem Counts.down_free (h : t.Counts locks) {l : Lock} (hl : l ∈ locks)
    (hfree : t.mayRoundDown l.var = true) : l.down = false := by
  have hzero : t.down l.var = 0 := by simpa [mayRoundDown] using hfree
  exact Bool.eq_false_iff.mpr fun hdown => (h.down l hl hdown).ne' hzero

theorem Counts.up_free (h : t.Counts locks) {l : Lock} (hl : l ∈ locks)
    (hfree : t.mayRoundUp l.var = true) : l.up = false := by
  have hzero : t.up l.var = 0 := by simpa [mayRoundUp] using hfree
  exact Bool.eq_false_iff.mpr fun hup => (h.up l hl hup).ne' hzero

/-- The second point differs from the first by moves in free directions only. -/
structure Free (t : LockTable) (p q : Point) : Prop where
  down : ∀ v, q.coord v < p.coord v → t.mayRoundDown v = true
  up : ∀ v, p.coord v < q.coord v → t.mayRoundUp v = true

end LockTable

open LockTable

variable [Rooted ℚ] {t : LockTable} {p q : Point}

/-! ## Rows -/

/-- A value without a finite place compares with all finite values alike. -/
theorem Exact.add_lt_fin_of_infinite {x : Exact ℚ} (hx : Scalar.isFinite x = false) (y : Exact ℚ) {a : ℚ}
    (b : ℚ) (h : x + y < .fin a) : x + y < .fin b := by
  cases x <;> cases y <;> first | exact h | cases hx

theorem Exact.fin_lt_sub_of_infinite {x : Exact ℚ} (hx : Scalar.isFinite x = false) (y : Exact ℚ) {a : ℚ}
    (b : ℚ) (h : .fin a < x - y) : .fin b < x - y := by
  cases x <;> cases y <;> first | exact h | cases hx

namespace LinearFamily

variable {row : Row (Exact ℚ)}

theorem mem_rowLocks {v : VarId} {a : ℚ} (hmem : (v, .fin a) ∈ row.coefs) :
    (if 0 < a then { var := v, down := Scalar.isFinite row.lhs, up := Scalar.isFinite row.rhs }
      else { var := v, down := Scalar.isFinite row.rhs, up := Scalar.isFinite row.lhs } : Lock) ∈ rowLocks row := by
  refine List.mem_map.mpr ⟨_, hmem, ?_⟩
  simp only [Exact.zero_def, Exact.fin_lt]

/-- A term of a row moves away from the finite sides, or not at all. -/
theorem termAt_free (hc : t.Counts (rowLocks row)) (hm : t.Free p q) {c : VarId × Exact ℚ}
    (hmem : c ∈ row.coefs) (hfin : Scalar.isFinite c.2 = true) :
    (Scalar.isFinite row.rhs = true → Row.termAt q c ≤ Row.termAt p c) ∧
      (Scalar.isFinite row.lhs = true → Row.termAt p c ≤ Row.termAt q c) := by
  obtain ⟨v, a⟩ := c
  obtain ⟨a, rfl⟩ := Exact.isFinite_iff.mp hfin
  have hlock := mem_rowLocks hmem
  simp only [Row.termAt, Exact.toField_fin]
  rcases lt_trichotomy (q.coord v) (p.coord v) with hlt | heq | hgt
  · by_cases ha : 0 < a
    · rw [if_pos ha] at hlock
      have hfree : Scalar.isFinite row.lhs = false := hc.down_free hlock (hm.down v hlt)
      exact ⟨fun _ => mul_le_mul_of_nonneg_left hlt.le ha.le, fun h => by simp [hfree] at h⟩
    · rw [if_neg ha] at hlock
      have hfree : Scalar.isFinite row.rhs = false := hc.down_free hlock (hm.down v hlt)
      exact ⟨fun h => by simp [hfree] at h, fun _ => mul_le_mul_of_nonpos_left hlt.le (not_lt.mp ha)⟩
  · rw [heq]
    exact ⟨fun _ => le_refl _, fun _ => le_refl _⟩
  · by_cases ha : 0 < a
    · rw [if_pos ha] at hlock
      have hfree : Scalar.isFinite row.rhs = false := hc.up_free hlock (hm.up v hgt)
      exact ⟨fun h => by simp [hfree] at h, fun _ => mul_le_mul_of_nonneg_left hgt.le ha.le⟩
    · rw [if_neg ha] at hlock
      have hfree : Scalar.isFinite row.lhs = false := hc.up_free hlock (hm.up v hgt)
      exact ⟨fun _ => mul_le_mul_of_nonpos_left hgt.le (not_lt.mp ha), fun h => by simp [hfree] at h⟩

/-- The activity of a row, before and after a free move: it does not come closer to a side. -/
theorem activity_free (hfin : ∀ c ∈ row.coefs, Scalar.isFinite c.2 = true) (hc : t.Counts (rowLocks row))
    (hm : t.Free p q) :
    ∃ a b : ℚ, row.activity p.vector = .fin a ∧ row.activity q.vector = .fin b ∧
      (Scalar.isFinite row.rhs = true → b ≤ a) ∧ (Scalar.isFinite row.lhs = true → a ≤ b) := by
  refine ⟨_, _, Row.activity_eq hfin p, Row.activity_eq hfin q, fun h => ?_, fun h => ?_⟩
  · exact List.sum_le_sum fun c hmem => (termAt_free hc hm hmem (hfin c hmem)).1 h
  · exact List.sum_le_sum fun c hmem => (termAt_free hc hm hmem (hfin c hmem)).2 h

/-- **A free move keeps the sides of a row.** -/
theorem holds_free (hfin : ∀ c ∈ row.coefs, Scalar.isFinite c.2 = true) (hc : t.Counts (rowLocks row))
    (hm : t.Free p q) (h : row.Holds p) : row.Holds q := by
  obtain ⟨a, b, hp, hq, hrhs, hlhs⟩ := activity_free hfin hc hm
  obtain ⟨hl, hr⟩ := h
  rw [hp] at hl hr
  rw [Row.Holds, hq]
  constructor
  · cases hside : row.lhs with
    | fin l =>
      rw [hside] at hl hlhs
      exact hl.trans (hlhs rfl)
    | nan => rw [hside] at hl; exact hl
    | posInf => rw [hside] at hl; exact hl
    | negInf => trivial
  · cases hside : row.rhs with
    | fin r =>
      rw [hside] at hr hrhs
      exact (hrhs rfl).trans hr
    | nan => rw [hside] at hr; exact hr
    | negInf => rw [hside] at hr; exact hr
    | posInf => trivial

/-- A free move keeps the sides of a row also where they are held to a tolerance only. -/
theorem not_violates_free (hfin : ∀ c ∈ row.coefs, Scalar.isFinite c.2 = true) (hc : t.Counts (rowLocks row))
    (hm : t.Free p q) {tol : Exact ℚ} (h : violates row p.vector tol = false) :
    violates row q.vector tol = false := by
  obtain ⟨a, b, hp, hq, hrhs, hlhs⟩ := activity_free hfin hc hm
  unfold violates at h ⊢
  rw [hp] at h
  rw [hq]
  simp only [Bool.or_eq_false_iff, decide_eq_false_iff_not] at h ⊢
  refine ⟨fun hlt => h.1 ?_, fun hlt => h.2 ?_⟩
  · cases hside : Scalar.isFinite row.rhs with
    | true => exact Exact.lt_of_lt_of_le' hlt (hrhs hside)
    | false => exact Exact.add_lt_fin_of_infinite hside _ a hlt
  · cases hside : Scalar.isFinite row.lhs with
    | true => exact Exact.lt_of_le_of_lt' (hlhs hside) hlt
    | false => exact Exact.fin_lt_sub_of_infinite hside _ a hlt

/-- A free move violates no constraint that was not violated before. -/
theorem check_free {f : LinearFamily (Exact ℚ)} {conss : List Nat}
    (hfin : ∀ c ∈ conss, ∀ cons, f.conss[c]? = some cons → ∀ e ∈ cons.row.coefs, Scalar.isFinite e.2 = true)
    (hc : ∀ c ∈ conss, t.Counts (f.locks c)) (hm : t.Free p q) {tol : Exact ℚ}
    (h : f.check conss p.vector tol = []) : f.check conss q.vector tol = [] := by
  rw [check, List.filter_eq_nil_iff] at h ⊢
  intro c hmem hbad
  have hgood := h c hmem
  have hlocks := hc c hmem
  cases hcons : f.conss[c]? with
  | none => simp [hcons] at hbad
  | some cons =>
    simp only [locks, hcons] at hlocks
    simp only [hcons, Bool.and_eq_true, not_and, Bool.not_eq_true] at hbad hgood
    have hkept := not_violates_free (hfin c hmem cons hcons) hlocks hm (hgood hbad.1)
    rw [hkept] at hbad
    exact Bool.false_ne_true hbad.2

end LinearFamily

/-! ## Special ordered sets -/

namespace Sos1Family

variable {s : Sos1Family} {c : Nat}

omit [Rooted ℚ] in
/-- A member of a set does not move up. -/
theorem coord_free (hc : t.Counts (s.locks c)) (hm : t.Free p q) {v : VarId} (hv : v ∈ s.members c) :
    q.coord v ≤ p.coord v := by
  have hlock : { var := v, down := false, up := true } ∈ s.locks c := List.mem_map_of_mem hv
  exact not_lt.mp fun hlt => nomatch hc.up_free hlock (hm.up v hlt)

omit [Rooted ℚ] in
/-- **A free move keeps a set**, provided that no member becomes negative. -/
theorem holds_free (hc : t.Counts (s.locks c)) (hm : t.Free p q) (hnonneg : ∀ v ∈ s.members c, 0 ≤ q.coord v)
    (h : Sos1Constraint.Holds (s.members c) p) : Sos1Constraint.Holds (s.members c) q := by
  have hzero : ∀ v ∈ s.members c, p.coord v = 0 → q.coord v = 0 := fun v hv hpv =>
    le_antisymm ((coord_free hc hm hv).trans hpv.le) (hnonneg v hv)
  exact List.Pairwise.imp_of_mem (fun hv hw => Or.imp (hzero _ hv) (hzero _ hw)) h

/-- A free move leaves a set as many members that count as nonzero at most. -/
theorem countP_free (hc : t.Counts (s.locks c)) (hm : t.Free p q) (hnonneg : ∀ v ∈ s.members c, 0 ≤ q.coord v)
    (tol : Exact ℚ) :
    ((s.members c).countP fun v => decide (tol < Scalar.abs (q.vector.getD v 0))) ≤
      (s.members c).countP fun v => decide (tol < Scalar.abs (p.vector.getD v 0)) := by
  refine List.countP_mono_left fun v hv h => ?_
  have habs : |q.coord v| ≤ |p.coord v| := abs_le_abs_of_nonneg (hnonneg v hv) (coord_free hc hm hv)
  rw [decide_eq_true_eq] at h ⊢
  simp only [Array.getD_eq_getD_getElem?, Point.vector_getD, Exact.abs_fin] at h ⊢
  exact Exact.lt_of_lt_of_le' h habs

theorem check_free {conss : List Nat} (hc : ∀ c ∈ conss, t.Counts (s.locks c)) (hm : t.Free p q)
    (hnonneg : ∀ c ∈ conss, ∀ v ∈ s.members c, 0 ≤ q.coord v) {tol : Exact ℚ}
    (h : s.check conss p.vector tol = []) : s.check conss q.vector tol = [] := by
  rw [check, List.filter_eq_nil_iff] at h ⊢
  intro c hmem hbad
  refine h c hmem ?_
  rw [decide_eq_true_eq] at hbad ⊢
  exact Nat.lt_of_lt_of_le hbad (countP_free (hc c hmem) hm (hnonneg c hmem) tol)

end Sos1Family

end BranchAndCut

import BranchAndCut.Proofs.Constraint.Lock
import BranchAndCut.Proofs.Domain.Whole
import BranchAndCut.Solve.Plugins

/-! # Rounding in unlocked directions keeps what holds

The built-in heuristic moves every fractional value of an integral variable to an integer
beside it, in a direction that no constraint locks. What it returns is inside the local
bounds, is integral to the tolerance, and satisfies every row and every special ordered set
whose locks are in the table, if the relaxation solution did. -/

namespace BranchAndCut

namespace Rounding

variable [Rooted ℚ] {h : HeuristicPoint (Exact ℚ)} {v : VarId} {a b : ℚ} {p q : Point}

omit [Rooted ℚ] in
theorem exists_int_nearest (a : ℚ) : ∃ z : ℤ, Exact.nearest a = z := by
  unfold Exact.nearest
  split
  · exact ⟨_, rfl⟩
  · exact ⟨_, rfl⟩

/-- What becomes of the value of a variable. -/
inductive Becomes (h : HeuristicPoint (Exact ℚ)) (v : VarId) (a : ℚ) : ℚ → Prop
  | continuous (hv : h.domains.isIntegral v = false) : Becomes h v a a
  | near (hnear : .fin |a - Exact.nearest a| ≤ h.intTol) : Becomes h v a a
  | down (hv : h.domains.isIntegral v = true) (hfree : h.locks.mayRoundDown v = true)
      (hbound : h.domains.lb v ≤ .fin (⌊a⌋ : ℚ)) : Becomes h v a ⌊a⌋
  | up (hv : h.domains.isIntegral v = true) (hfree : h.locks.mayRoundUp v = true)
      (hbound : .fin (⌈a⌉ : ℚ) ≤ h.domains.ub v) : Becomes h v a ⌈a⌉

theorem becomes_of_roundValue? {value : Exact ℚ} {changed : Bool}
    (hr : roundValue? h v (.fin a) = some (value, changed)) : ∃ b, value = .fin b ∧ Becomes h v a b := by
  unfold roundValue? at hr
  cases hv : h.domains.isIntegral v with
  | false =>
    rw [hv] at hr
    cases hr
    exact ⟨a, rfl, .continuous hv⟩
  | true =>
    simp only [hv, Exact.round_fin, Exact.fin_sub, Exact.abs_fin, Bool.and_eq_true, decide_eq_true_eq,
      Bool.not_true, Bool.false_eq_true, if_false] at hr
    split_ifs at hr with hnear hdown hup
    · cases hr
      exact ⟨a, rfl, .near hnear⟩
    · cases hr
      exact ⟨_, rfl, .down hv hdown.1 hdown.2⟩
    · cases hr
      exact ⟨_, rfl, .up hv hup.1 hup.2⟩

namespace Becomes

/-- A value inside the local bounds stays inside. -/
theorem within (hb : Becomes h v a b) (hin : h.domains.lb v ≤ .fin a ∧ .fin a ≤ h.domains.ub v) :
    h.domains.lb v ≤ .fin b ∧ .fin b ≤ h.domains.ub v := by
  cases hb with
  | continuous => exact hin
  | near => exact hin
  | down _ _ hbound => exact ⟨hbound, Exact.le_trans' ((Exact.fin_le _ _).mpr (Int.floor_le a)) hin.2⟩
  | up _ _ hbound => exact ⟨Exact.le_trans' hin.1 ((Exact.fin_le _ _).mpr (Int.le_ceil a)), hbound⟩

/-- The direction of a change is free. -/
theorem free (hb : Becomes h v a b) :
    (b < a → h.locks.mayRoundDown v = true) ∧ (a < b → h.locks.mayRoundUp v = true) := by
  cases hb with
  | continuous => exact ⟨fun hlt => (lt_irrefl _ hlt).elim, fun hlt => (lt_irrefl _ hlt).elim⟩
  | near => exact ⟨fun hlt => (lt_irrefl _ hlt).elim, fun hlt => (lt_irrefl _ hlt).elim⟩
  | down _ hfree => exact ⟨fun _ => hfree, fun hlt => (not_lt.mpr (Int.floor_le a) hlt).elim⟩
  | up _ hfree => exact ⟨fun hlt => (not_lt.mpr (Int.le_ceil a) hlt).elim, fun _ => hfree⟩

theorem eq_of_continuous (hb : Becomes h v a b) (hv : h.domains.isIntegral v = false) : b = a := by
  cases hb with
  | continuous => rfl
  | near => rfl
  | down hint => simp [hv] at hint
  | up hint => simp [hv] at hint

/-- An integral variable has an integer, or a value that counts as one. -/
theorem integer (hb : Becomes h v a b) (hv : h.domains.isIntegral v = true) :
    ∃ z : ℤ, b = z ∨ .fin |b - z| ≤ h.intTol := by
  cases hb with
  | continuous hcont => simp [hv] at hcont
  | near hnear =>
    obtain ⟨z, hz⟩ := exists_int_nearest a
    rw [hz] at hnear
    exact ⟨z, .inr hnear⟩
  | down => exact ⟨⌊a⌋, .inl rfl⟩
  | up => exact ⟨⌈a⌉, .inl rfl⟩

end Becomes

/-- The values are rounded one by one, from the variable `k` on. -/
theorem becomes_of_mapM {xs : List ℚ} {k : VarId} {values : List (Exact ℚ × Bool)}
    (hmap : ((xs.map Exact.fin).zipIdx k).mapM (fun (value, v) => roundValue? h v value) = some values) :
    ∃ ys : List ℚ, values.map Prod.fst = ys.map Exact.fin ∧ ys.length = xs.length ∧
      ∀ i < xs.length, Becomes h (k + i) (xs.getD i 0) (ys.getD i 0) := by
  induction xs generalizing k values with
  | nil =>
    obtain rfl := Option.some.inj hmap
    exact ⟨[], rfl, rfl, nofun⟩
  | cons a xs ih =>
    rw [List.map_cons, List.zipIdx_cons, List.mapM_cons] at hmap
    obtain ⟨⟨value, changed⟩, hvalue, hmap⟩ := Option.bind_eq_some_iff.mp hmap
    obtain ⟨rest, hrest, hmap⟩ := Option.bind_eq_some_iff.mp hmap
    obtain rfl := Option.some.inj hmap
    obtain ⟨b, rfl, hb⟩ := becomes_of_roundValue? hvalue
    obtain ⟨ys, hys, hlength, hbecomes⟩ := ih hrest
    refine ⟨b :: ys, by rw [List.map_cons, hys, List.map_cons], by simp [hlength], fun i hi => ?_⟩
    cases i with
    | zero => exact hb
    | succ i =>
      have := hbecomes i (Nat.lt_of_succ_lt_succ hi)
      rwa [Nat.add_right_comm] at this

/-- What is returned is a point of the same variables, each with what became of its value. -/
theorem becomes_of_find {r r' : Rounding} {y : Array (Exact ℚ)} (hx : h.x = p.vector)
    (hfind : r.find h = (some y, r')) :
    ∃ q : Point, y = q.vector ∧ q.size = p.size ∧ ∀ v < p.size, Becomes h v (p.coord v) (q.coord v) := by
  have hpoint : point? h = some y := by
    unfold find at hfind
    split at hfind
    · next x hx => rw [hx, (Prod.mk.inj hfind).1]
    · cases (Prod.mk.inj hfind).1
  unfold point? at hpoint
  obtain ⟨values, hmap, hpoint⟩ := Option.bind_eq_some_iff.mp hpoint
  rw [hx, Point.vector, Array.toList_map] at hmap
  obtain ⟨ys, hys, hlength, hbecomes⟩ := becomes_of_mapM hmap
  split at hpoint
  · refine ⟨ys.toArray, ?_, hlength, fun v hv => ?_⟩
    · rw [← Option.some.inj hpoint, hys, Point.vector, List.map_toArray]
    · simpa [Point.coord] using hbecomes v hv
  · cases hpoint

theorem free_of_becomes (hsize : q.size = p.size)
    (hbecomes : ∀ v < p.size, Becomes h v (p.coord v) (q.coord v)) : h.locks.Free p q := by
  have hsame : ∀ v, ¬ v < p.size → q.coord v = p.coord v := fun v hv => by
    have hle := Nat.le_of_not_lt hv
    rw [Point.coord_of_size_le hle, Point.coord_of_size_le (hsize ▸ hle)]
  constructor
  · intro v hlt
    by_cases hv : v < p.size
    · exact (hbecomes v hv).free.1 hlt
    · exact (hlt.ne (hsame v hv)).elim
  · intro v hlt
    by_cases hv : v < p.size
    · exact (hbecomes v hv).free.2 hlt
    · exact (hlt.ne' (hsame v hv)).elim

/-- **Rounding in unlocked directions keeps what holds.** The table counts the locks of the
constraints, in any order and among others; a point inside the local bounds is rounded. What
is returned is inside the local bounds, differs in integral variables only, and they have
integers or what counts as one. Every row that held still holds, and every set of nonnegative
variables that had one nonzero member at most has no more, exactly as to any tolerance. -/
theorem find_feasible {r r' : Rounding} {y : Array (Exact ℚ)} {f : LinearFamily (Exact ℚ)} {s : Sos1Family}
    {rows sets : List Nat} {start : LockTable} {added : List (List Lock)}
    (hlocks : h.locks = added.foldl LockTable.add start)
    (hrows : ∀ c ∈ rows, f.locks c ∈ added) (hsets : ∀ c ∈ sets, s.locks c ∈ added)
    (hfinite : ∀ c ∈ rows, ∀ cons, f.conss[c]? = some cons → ∀ e ∈ cons.row.coefs, Scalar.isFinite e.2 = true)
    (hnonneg : ∀ c ∈ sets, ∀ v ∈ s.members c, 0 ≤ h.domains.lb v)
    (hx : h.x = p.vector) (hin : ∀ v < p.size, h.domains.lb v ≤ .fin (p.coord v) ∧ .fin (p.coord v) ≤ h.domains.ub v)
    (hfind : r.find h = (some y, r')) :
    ∃ q : Point, y = q.vector ∧ q.size = p.size ∧
      (∀ v < p.size, h.domains.lb v ≤ .fin (q.coord v) ∧ .fin (q.coord v) ≤ h.domains.ub v) ∧
      (∀ v < p.size, h.domains.isIntegral v = false → q.coord v = p.coord v) ∧
      (∀ v < p.size, h.domains.isIntegral v = true → ∃ z : ℤ, q.coord v = z ∨ .fin |q.coord v - z| ≤ h.intTol) ∧
      (∀ c ∈ rows, ∀ cons, f.conss[c]? = some cons → cons.row.Holds p → cons.row.Holds q) ∧
      (∀ c ∈ sets, Sos1Constraint.Holds (s.members c) p → Sos1Constraint.Holds (s.members c) q) ∧
      (∀ tol, f.check rows h.x tol = [] → f.check rows y tol = []) ∧
      ∀ tol, s.check sets h.x tol = [] → s.check sets y tol = [] := by
  obtain ⟨q, rfl, hsize, hbecomes⟩ := becomes_of_find hx hfind
  have hwithin := fun v hv => (hbecomes v hv).within (hin v hv)
  have hmove : h.locks.Free p q := free_of_becomes hsize hbecomes
  have hrow : ∀ c ∈ rows, h.locks.Counts (f.locks c) := fun c hc =>
    hlocks ▸ LockTable.counts_foldl_add start (hrows c hc)
  have hset : ∀ c ∈ sets, h.locks.Counts (s.locks c) := fun c hc =>
    hlocks ▸ LockTable.counts_foldl_add start (hsets c hc)
  have hmember : ∀ c ∈ sets, ∀ v ∈ s.members c, 0 ≤ q.coord v := by
    intro c hc v hmem
    by_cases hv : v < p.size
    · exact Exact.zero_le_fin.mp (Exact.le_trans' (hnonneg c hc v hmem) (hwithin v hv).1)
    · exact (Point.coord_of_size_le (hsize ▸ Nat.le_of_not_lt hv)).ge
  refine ⟨q, rfl, hsize, hwithin, fun v hv => (hbecomes v hv).eq_of_continuous, fun v hv => (hbecomes v hv).integer,
    fun c hc cons hcons => ?_, fun c hc => Sos1Family.holds_free (hset c hc) hmove (hmember c hc),
    fun tol => ?_, fun tol => ?_⟩
  · have hlocked := hrow c hc
    simp only [LinearFamily.locks, hcons] at hlocked
    exact LinearFamily.holds_free (hfinite c hc cons hcons) hlocked hmove
  · rw [hx]
    exact LinearFamily.check_free hfinite hrow hmove
  · rw [hx]
    exact Sos1Family.check_free hset hmove hmember

end Rounding

namespace Rounding

/-- A row locks the first variable upwards and the second downwards, and a set locks the first
and the third upwards. -/
theorem find_feasible_pair :
    let row : Row (Exact ℚ) := { coefs := [(0, .fin 1), (1, .fin (-1))], lhs := .negInf, rhs := .fin 0 }
    let f : LinearFamily (Exact ℚ) := { conss := #[{ name := "order", row }] }
    let s : Sos1Family := { conss := #[{ name := "choice", vars := [0, 2] }] }
    let h : HeuristicPoint (Exact ℚ) := {
      x := #[.fin (1 / 2), .fin (3 / 2), .fin 0]
      domains := Domains.new #[.fin 0, .fin 0, .fin 0] #[.fin 4, .fin 4, .fin 4] #[true, true, false] (.fin (1 / 1000))
      locks := [s.locks 0, f.locks 0].foldl LockTable.add (.new 1)
      intTol := .fin (1 / 1000) }
    let y : Array (Exact ℚ) := #[.fin 0, .fin 2, .fin 0]
    (find {} h).1 = some y ∧ f.check [0] y 0 = [] ∧ s.check [0] y 0 = [] := by
  intro row f s h y
  have hfind : find {} h = (some y, { calls := 1, found := 1 }) := by decide +kernel
  have hrows : ∀ c ∈ [0], f.locks c ∈ [s.locks 0, f.locks 0] := by simp
  have hsets : ∀ c ∈ [0], s.locks c ∈ [s.locks 0, f.locks 0] := by simp
  have hfinite : ∀ c ∈ [0], ∀ cons, f.conss[c]? = some cons → ∀ e ∈ cons.row.coefs, Scalar.isFinite e.2 = true := by
    intro c hc cons hcons
    obtain rfl := List.mem_singleton.mp hc
    obtain rfl := Option.some.inj hcons
    decide +kernel
  have hx : h.x = Point.vector #[1 / 2, 3 / 2, 0] := by decide +kernel
  have hin : ∀ v < 3, h.domains.lb v ≤ .fin (Point.coord #[1 / 2, 3 / 2, 0] v) ∧
      .fin (Point.coord #[1 / 2, 3 / 2, 0] v) ≤ h.domains.ub v := by decide +kernel
  obtain ⟨q, -, -, -, -, -, -, -, hrow, hset⟩ :=
    find_feasible rfl hrows hsets hfinite (by decide +kernel) hx hin hfind
  exact ⟨congrArg Prod.fst hfind, hrow 0 (by decide +kernel), hset 0 (by decide +kernel)⟩

end Rounding

end BranchAndCut

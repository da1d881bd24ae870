import BranchAndCut.Proofs.Retention.Improvement

/-! # Bounds in order, and pruning for good

Solutions and lower bounds are reported in any order and with any values. The solutions
accepted are the strict improvements among those reported, the dual bound stays below the
primal one, and what is pruned once is pruned for good: the cutoff only falls, and so does
the cutoff less its tolerance. -/

namespace BranchAndCut.Incumbent

/-! ## Calls -/

section Calls

variable {K : Type} [Scalar K]

/-- What the bounds are told. -/
inductive Call (K : Type) where
  | report (x : Array K) (obj : K)
  | updateDual (lowest : K)

def Call.run (b : Incumbent K) : Call K → Incumbent K
  | .report x obj => (b.offer x obj).2
  | .updateDual lowest => b.updateDual lowest

/-- The bounds after some calls. -/
def after (objLimit absTol : K) (calls : List (Call K)) : Incumbent K :=
  calls.foldl Call.run (new objLimit absTol)

/-- A solution of this objective is better than those found before and than the limit. -/
def Betters (objLimit : K) (found : List (Array K × K)) (obj : K) : Prop :=
  Scalar.isFinite obj = true ∧ obj < objLimit ∧ ∀ e ∈ found, obj < e.2

instance (objLimit : K) (found : List (Array K × K)) (obj : K) : Decidable (Betters objLimit found obj) :=
  inferInstanceAs (Decidable (_ ∧ _ ∧ ∀ e ∈ found, obj < e.2))

/-- The solutions found, after one more call. -/
def Call.extend (objLimit : K) (found : List (Array K × K)) : Call K → List (Array K × K)
  | .report x obj => if Betters objLimit found obj then found ++ [(x, obj)] else found
  | .updateDual _ => found

/-- The strict improvements among the solutions reported, in order. -/
def improvements (objLimit : K) (calls : List (Call K)) : List (Array K × K) :=
  calls.foldl (Call.extend objLimit) []

end Calls

variable {F : Type} [Field F] [LinearOrder F] [FloorRing F] [Rooted F]
  {objLimit absTol : Exact F} {b : Incumbent (Exact F)} {found : List (Array (Exact F) × Exact F)}

/-! ## What every call keeps -/

/-- The bounds go with the solutions found. -/
structure Tracks (objLimit absTol : Exact F) (found : List (Array (Exact F) × Exact F))
    (b : Incumbent (Exact F)) : Prop where
  limit : b.objLimit = objLimit
  tol : b.absTol = absTol
  ordered : b.dual ≤ b.primal
  vacant : found = [] → b.solution = none ∧ b.primal = .posInf
  latest : ∀ x obj, found.getLast? = some (x, obj) → b.solution = some x ∧ b.primal = obj
  falling : found.Pairwise fun e e' => e'.2 < e.2
  valid : ∀ e ∈ found, Scalar.isFinite e.2 = true ∧ e.2 < objLimit
  updates : b.updates = found.length

namespace Tracks

theorem new (objLimit absTol : Exact F) : Tracks objLimit absTol [] (new objLimit absTol) where
  limit := rfl
  tol := rfl
  ordered := trivial
  vacant _ := ⟨rfl, rfl⟩
  latest := nofun
  falling := .nil
  valid := nofun
  updates := rfl

theorem primal_ne_nan (h : Tracks objLimit absTol found b) : b.primal ≠ .nan := (Exact.ne_nan_of_le h.ordered).2

/-- What is better than the primal bound is better than all solutions found. -/
theorem betters_iff (h : Tracks objLimit absTol found b) {obj : Exact F} :
    Betters objLimit found obj ↔ Scalar.isFinite obj = true ∧ obj < objLimit ∧ obj < b.primal := by
  refine and_congr_right fun hfinite => and_congr_right fun _ => ?_
  rcases List.eq_nil_or_concat' found with rfl | ⟨earlier, ⟨x, last⟩, rfl⟩
  · obtain ⟨a, rfl⟩ := Exact.isFinite_iff.mp hfinite
    rw [(h.vacant rfl).2]
    exact ⟨fun _ => trivial, fun _ => nofun⟩
  · rw [(h.latest x last List.getLast?_concat).2]
    refine ⟨fun hall => hall (x, last) List.mem_concat_self, fun hlast e he => ?_⟩
    rcases List.mem_append.mp he with he | he
    · have hbefore := (List.pairwise_append.mp h.falling).2.2 e he (x, last) (List.mem_singleton_self _)
      exact Exact.lt_of_lt_of_le' hlast (Exact.le_of_lt hbefore)
    · rwa [List.mem_singleton.mp he]

/-- **A solution is accepted** exactly if it is a strict improvement. -/
theorem offer_iff (h : Tracks objLimit absTol found b) (hlimit : objLimit ≠ .nan) (x : Array (Exact F))
    (obj : Exact F) : (b.offer x obj).1 = true ↔ Betters objLimit found obj := by
  rw [h.betters_iff]
  unfold offer
  rw [h.limit]
  split
  · next hworse =>
    refine ⟨nofun, fun ⟨hfinite, hbelow, hless⟩ => ?_⟩
    rw [hfinite, Bool.not_true, Bool.false_or, Bool.or_eq_true, decide_eq_true_iff, decide_eq_true_iff] at hworse
    exact hworse.elim (Exact.not_lt_of_le · hless) (Exact.not_lt_of_le · hbelow) |>.elim
  · next hbetter =>
    rw [Bool.or_eq_true, Bool.or_eq_true, not_or, not_or, Bool.not_eq_true', Bool.not_eq_false, decide_eq_true_iff,
      decide_eq_true_iff] at hbetter
    obtain ⟨⟨hfinite, hless⟩, hbelow⟩ := hbetter
    obtain ⟨a, rfl⟩ := Exact.isFinite_iff.mp hfinite
    have hdefined := Exact.fin_ne_nan a
    exact ⟨fun _ => ⟨hfinite, Exact.lt_of_not_le hdefined hlimit hbelow,
      Exact.lt_of_not_le hdefined h.primal_ne_nan hless⟩, fun _ => rfl⟩

/-- The bounds after a solution was accepted. -/
theorem accept (h : Tracks objLimit absTol found b) {obj : Exact F} (hbetters : Betters objLimit found obj)
    (x : Array (Exact F)) : Tracks objLimit absTol (found ++ [(x, obj)])
      { b with primal := obj, solution := some x, updates := b.updates + 1,
               dual := if obj < b.dual then obj else b.dual } := by
  have hdefined : obj ≠ .nan := (Exact.ne_nan_of_lt hbetters.2.1).1
  refine ⟨h.limit, h.tol, ?_, fun hnil => absurd hnil (List.concat_ne_nil _ _), fun y v hlast => ?_,
    List.pairwise_append.mpr ⟨h.falling, List.pairwise_singleton _ _, fun e he e' he' => ?_⟩, fun e he => ?_, ?_⟩
  · dsimp only
    split
    · exact Exact.le_refl' hdefined
    · next hle => exact Exact.le_of_not_lt (Exact.ne_nan_of_le h.ordered).1 hdefined hle
  · rw [List.getLast?_concat] at hlast
    cases hlast
    exact ⟨rfl, rfl⟩
  · rw [List.mem_singleton.mp he']
    exact hbetters.2.2 e he
  · rcases List.mem_append.mp he with he | he
    · exact h.valid e he
    · rw [List.mem_singleton.mp he]
      exact ⟨hbetters.1, hbetters.2.1⟩
  · rw [List.length_append, ← h.updates]
    rfl

/-- **What a call does** to the bounds goes with what it adds to the solutions found. -/
theorem run (h : Tracks objLimit absTol found b) (hlimit : objLimit ≠ .nan) (call : Call (Exact F)) :
    Tracks objLimit absTol (call.extend objLimit found) (call.run b) := by
  cases call with
  | report x obj =>
    have haccepts := h.offer_iff hlimit x obj
    unfold Call.extend Call.run offer at *
    dsimp only
    split at haccepts
    · next hworse =>
      rw [if_pos hworse, if_neg fun hbetters => Bool.false_ne_true (haccepts.mpr hbetters)]
      exact h
    · next hbetter =>
      rw [if_neg hbetter, if_pos (haccepts.mp rfl)]
      exact h.accept (haccepts.mp rfl) x
  | updateDual lowest =>
    unfold Call.run updateDual
    dsimp only
    split
    · exact { h with ordered := Exact.min_le_right' h.primal_ne_nan }
    · exact h

theorem foldl (h : Tracks objLimit absTol found b) (hlimit : objLimit ≠ .nan) (calls : List (Call (Exact F))) :
    Tracks objLimit absTol (calls.foldl (Call.extend objLimit) found) (calls.foldl Call.run b) := by
  induction calls generalizing found b with
  | nil => exact h
  | cons call calls ih => exact ih (h.run hlimit call)

end Tracks

theorem after_tracks (hlimit : objLimit ≠ .nan) (absTol : Exact F) (calls : List (Call (Exact F))) :
    Tracks objLimit absTol (improvements objLimit calls) (after objLimit absTol calls) :=
  (Tracks.new objLimit absTol).foldl hlimit calls

theorem after_append (objLimit absTol : Exact F) (calls later : List (Call (Exact F))) :
    after objLimit absTol (calls ++ later) = later.foldl Call.run (after objLimit absTol calls) :=
  List.foldl_append ..

/-! ## The value to beat -/

/-- The lesser of two values falls with the first one. -/
theorem min_mono {a a' c : Exact F} (h : a' ≤ a) (hc : c ≠ .nan) : Scalar.min a' c ≤ Scalar.min a c :=
  Exact.le_min' (Exact.min_le_of_le h) (Exact.min_le_right' hc)

/-- **The cutoff only falls.** -/
theorem Tracks.cutoff_run (h : Tracks objLimit absTol found b) (hlimit : objLimit ≠ .nan) (call : Call (Exact F)) :
    (call.run b).cutoff ≤ b.cutoff := by
  have hself : b.cutoff ≤ b.cutoff := min_mono (Exact.le_refl' h.primal_ne_nan) (h.limit ▸ hlimit)
  cases call with
  | report x obj =>
    unfold Call.run offer
    dsimp only
    split
    · exact hself
    · next hbetter =>
      rw [Bool.or_eq_true, Bool.or_eq_true, not_or, not_or, Bool.not_eq_true', Bool.not_eq_false,
        decide_eq_true_iff] at hbetter
      obtain ⟨a, rfl⟩ := Exact.isFinite_iff.mp hbetter.1.1
      have hless := Exact.lt_of_not_le (Exact.fin_ne_nan a) h.primal_ne_nan hbetter.1.2
      exact min_mono (Exact.le_of_lt hless) (h.limit ▸ hlimit)
  | updateDual lowest =>
    unfold Call.run updateDual
    dsimp only
    split <;> exact hself

theorem isPrunable_iff {bound : Exact F} : b.isPrunable bound = true ↔ target b.absTol b.cutoff ≤ bound :=
  decide_eq_true_iff

/-- The dual bound never falls when it is updated. -/
theorem Tracks.dual_le_updateDual (h : Tracks objLimit absTol found b) (lowest : Exact F) :
    b.dual ≤ (b.updateDual lowest).dual := by
  unfold updateDual
  dsimp only
  split
  · next hlt => exact Exact.le_of_lt hlt
  · exact Exact.le_refl' (Exact.ne_nan_of_le h.ordered).1

section Permanence

variable [IsStrictOrderedRing F]

/-- **Pruning is permanent**, whatever calls follow. -/
theorem Tracks.isPrunable_foldl (h : Tracks objLimit absTol found b) (hlimit : objLimit ≠ .nan) (htol : 0 ≤ absTol)
    {bound : Exact F} (hprunable : b.isPrunable bound = true) (later : List (Call (Exact F))) :
    (later.foldl Call.run b).isPrunable bound = true := by
  induction later generalizing found b with
  | nil => exact hprunable
  | cons call later ih =>
    refine ih (h.run hlimit call) ?_
    rw [isPrunable_iff] at hprunable ⊢
    rw [(h.run hlimit call).tol]
    rw [h.tol] at hprunable
    exact Exact.le_trans' (target_mono htol (h.cutoff_run hlimit call)) hprunable

/-- **The bounds are in order and pruning is permanent.** After any calls the dual bound is
below the primal one; the primal bound is infinite before the first solution is accepted,
and then the objective of the stored solution, the last of the strict improvements; these
fall below the limit and below each other, and their number is counted; an update never
lowers the dual bound; and a node that is prunable stays so, with all of greater bounds. -/
theorem after_permanent (hlimit : objLimit ≠ .nan) (htol : 0 ≤ absTol) (calls : List (Call (Exact F))) :
    let b := after objLimit absTol calls
    let found := improvements objLimit calls
    b.dual ≤ b.primal ∧
    (found = [] → b.solution = none ∧ b.primal = Scalar.inf) ∧
    (∀ x obj, found.getLast? = some (x, obj) → b.solution = some x ∧ b.primal = obj) ∧
    (∀ x obj, (b.offer x obj).1 = true ↔ Scalar.isFinite obj = true ∧ obj < objLimit ∧ obj < b.primal) ∧
    found.Pairwise (fun e e' => e'.2 < e.2) ∧ (∀ e ∈ found, e.2 < objLimit) ∧ b.updates = found.length ∧
    (∀ lowest, b.dual ≤ (b.updateDual lowest).dual) ∧
    ∀ bound bound', b.isPrunable bound = true → bound ≤ bound' → ∀ later,
      (after objLimit absTol (calls ++ later)).isPrunable bound' = true := by
  intro b found
  have h := after_tracks hlimit absTol calls
  refine ⟨h.ordered, h.vacant, h.latest, fun x obj => (h.offer_iff hlimit x obj).trans h.betters_iff, h.falling,
    fun e he => (h.valid e he).2, h.updates, h.dual_le_updateDual, fun bound bound' hprunable hle later => ?_⟩
  rw [after_append]
  refine h.isPrunable_foldl hlimit htol ?_ later
  rw [isPrunable_iff] at hprunable ⊢
  exact Exact.le_trans' hprunable hle

end Permanence

/-- A limit of 10, dual bounds beyond both solutions, a solution at the limit and one that is
no better: two solutions are accepted, and the bound 4 is prunable from then on. -/
theorem after_permanent_clamped :
    let calls : List (Call (Exact ℚ)) := [.updateDual 12, .report #[1] 10, .report #[2] 7, .updateDual Scalar.inf,
      .report #[3] 4, .report #[4] 5, .updateDual (-3)]
    (10 : Exact ℚ) ≠ .nan ∧ (0 : Exact ℚ) ≤ 1e-9 ∧ improvements 10 calls = [(#[2], 7), (#[3], 4)] ∧
      (after 10 1e-9 calls).primal = 4 ∧ (after 10 1e-9 calls).dual = 4 ∧ (after 10 1e-9 calls).updates = 2 ∧
      ∀ later, (after 10 1e-9 (calls ++ later)).isPrunable 5 = true := by
  intro calls
  have hlimit : (10 : Exact ℚ) ≠ .nan := nofun
  have htol : (0 : Exact ℚ) ≤ 1e-9 := by decide +kernel
  obtain ⟨-, -, -, -, -, -, -, -, hprunable⟩ := after_permanent hlimit htol calls
  exact ⟨hlimit, htol, by decide +kernel, by decide +kernel, by decide +kernel, by decide +kernel,
    hprunable 4 5 (by decide +kernel) (by decide +kernel)⟩

end BranchAndCut.Incumbent

import BranchAndCut.Lp.Simplex
import BranchAndCut.Proofs.Arrays

/-! # What the simplex method does in a step

A step computes the tableau afresh, moves a column to its opposite bound or exchanges one
basic column for another, and nothing else. What every such move keeps is therefore kept by
a run. A step without a verdict uses up some of a budget of steps, so that a run with
enough of it ends because of a verdict. -/

namespace BranchAndCut.Lp

/-- At most so many steps are taken before a verdict: each counts an iteration, or confirms
a verdict, for which columns must have been exchanged. -/
def Pace.budget (maxIter : Nat) (pace : Pace) : Nat :=
  2 * (maxIter - pace.effort.iters) + min pace.sinceRefactor 1

namespace Simplex

variable {K : Type} [Scalar K] {s s' : Simplex K} {t : Tableau K} {pace pace' : Pace} {j : Nat}
  {dir : K} {maxIter : Nat}

/-- One move of the method. -/
inductive Move (s : Simplex K) : Simplex K → Prop
  | refactor {s' : Simplex K} (h : s.refactor? = some s') : Move s s'
  | flip {t : Tableau K} {j : Nat} {d dir step : K} {phase1 bland : Bool}
      (ht : s.tableau = some t) (hdir : s.improvingDirection? j d = some dir)
      (hratio : s.ratioTest t j dir phase1 bland = .ownBound step) : Move s (s.flip t j dir step)
  | exchange {t : Tableau K} {j r : Nat} {d dir step bound : K} {phase1 bland atUpper : Bool}
      (ht : s.tableau = some t) (hdir : s.improvingDirection? j d = some dir)
      (hratio : s.ratioTest t j dir phase1 bland = .row r step bound atUpper) :
      Move s ((s.shift t j dir step).exchange t r j bound atUpper)

/-! ## The entering column -/

theorem firstImproving?_some {d : Array K} (h : s.firstImproving? d = some (j, dir)) :
    j < d.size ∧ s.improvingDirection? j (d.getD j 0) = some dir := by
  obtain ⟨k, hk, hsome⟩ := List.exists_of_findSome?_eq_some h
  obtain ⟨dir', hdir, heq⟩ := Option.map_eq_some_iff.mp hsome
  obtain ⟨rfl, rfl⟩ := Prod.mk.inj heq
  exact ⟨List.mem_range.mp hk, hdir⟩

theorem steepestImproving?_some {d : Array K} (h : s.steepestImproving? d = some (j, dir)) :
    j < d.size ∧ s.improvingDirection? j (d.getD j 0) = some dir := by
  let good : Option (Nat × K) × K → Prop := fun best => ∀ j dir, best.1 = some (j, dir) →
    j < d.size ∧ s.improvingDirection? j (d.getD j 0) = some dir
  refine fold_induction (fun _ => good) (x := ((none : Option (Nat × K)), (0 : K))) nofun ?_ j dir h
  rintro k hk ⟨best, size⟩ hbest
  dsimp only
  cases hdir : s.improvingDirection? k (d.getD k 0) with
  | none => exact hbest
  | some dir =>
    dsimp only
    by_cases hlarger : size < Scalar.abs (d.getD k 0)
    · rw [if_pos hlarger]
      rintro j dir' heq
      obtain ⟨rfl, rfl⟩ := Prod.mk.inj (Option.some.inj heq)
      exact ⟨hk, hdir⟩
    · rw [if_neg hlarger]
      exact hbest

/-- A column that pricing lets enter improves. -/
theorem pricing_improves (h : (s.pricing t pace).entering? = some (j, dir)) :
    ∃ d, s.improvingDirection? j d = some dir := by
  unfold pricing at h
  dsimp only at h
  split at h
  · exact ⟨_, (firstImproving?_some h).2⟩
  · exact ⟨_, (steepestImproving?_some h).2⟩

/-! ## One step -/

/-- A step makes moves only, keeps the mark of a warm start and, without a verdict, uses up
some of the budget. -/
structure Follows (maxIter : Nat) (s : Simplex K) (pace : Pace) (out : Outcome K) : Prop where
  moves : Relation.ReflTransGen Move s out.1
  warmStarted : out.2.1.effort.warmStarted = pace.effort.warmStarted
  budget : out.2.2 = none → out.2.1.budget maxIter < pace.budget maxIter

theorem refresh?_some (h : s.refresh? pace = some (s', pace')) :
    s.refactor? = some s' ∧ pace'.effort.warmStarted = pace.effort.warmStarted ∧
      pace'.effort.iters = pace.effort.iters ∧ pace'.sinceRefactor = 0 := by
  obtain ⟨s₁, hrefactor, heq⟩ := Option.map_eq_some_iff.mp h
  obtain ⟨rfl, rfl⟩ := Prod.mk.inj heq
  exact ⟨hrefactor, rfl, rfl, rfl⟩

theorem advance_follows (ht : s.tableau = some t) {d : K}
    (hdir : s.improvingDirection? j d = some dir) (hlt : pace.effort.iters < maxIter)
    (phase1 bland : Bool) : Follows maxIter s pace (s.advance t pace j dir phase1 bland) := by
  -- counting the iteration leaves room for whatever is counted since the last fresh tableau
  have hcounted : ∀ pace' : Pace, pace'.effort.iters = pace.effort.iters + 1 →
      pace'.budget maxIter < pace.budget maxIter := by
    intro pace' hiters
    unfold Pace.budget
    omega
  unfold advance
  dsimp only
  cases hratio : s.ratioTest t j dir phase1 bland with
  | nothing =>
    dsimp only
    split
    · split
      · next s' pace' hrefresh =>
        split at hrefresh
        · obtain ⟨hrefactor, hwarm, hiters, -⟩ := refresh?_some hrefresh
          exact ⟨.single (.refactor hrefactor), hwarm, fun _ => hcounted _ hiters⟩
        · cases hrefresh
      · exact ⟨.refl, rfl, nofun⟩
    · exact ⟨.refl, rfl, nofun⟩
  | ownBound step => exact ⟨.single (.flip ht hdir hratio), rfl, fun _ => hcounted _ rfl⟩
  | row r step bound atUpper =>
    exact ⟨.single (.exchange ht hdir hratio), rfl, fun _ => hcounted _ rfl⟩

theorem price_follows (ht : s.tableau = some t) (hlt : pace.effort.iters < maxIter) :
    Follows maxIter s pace (s.price t pace) := by
  unfold price
  dsimp only
  split
  · next j dir hentering =>
    obtain ⟨d, hdir⟩ := pricing_improves hentering
    exact advance_follows ht hdir hlt _ _
  · split
    · next hsince =>
      split
      · next s' pace' hrefresh =>
        obtain ⟨hrefactor, hwarm, hiters, hfresh⟩ := refresh?_some hrefresh
        refine ⟨.single (.refactor hrefactor), hwarm, fun _ => ?_⟩
        have hpos : 0 < pace.sinceRefactor := of_decide_eq_true (Bool.and_eq_true_iff.mp hsince).1
        unfold Pace.budget
        dsimp only
        rw [hiters, hfresh]
        omega
      · exact ⟨.refl, rfl, nofun⟩
    · exact ⟨.refl, rfl, nofun⟩

/-- The state before pricing is the one at hand, or has a tableau computed afresh. -/
theorem prepared?_some (h : s.prepared? pace = some (s', pace')) :
    s.refresh? pace = some (s', pace') ∨ s' = s ∧ pace' = pace := by
  unfold prepared? at h
  split at h
  · exact .inl h
  · obtain ⟨rfl, rfl⟩ := Prod.mk.inj (Option.some.inj h)
    exact .inr ⟨rfl, rfl⟩

theorem step_follows (s : Simplex K) (pace : Pace) :
    Follows s.settings.maxIter s pace (s.step pace) := by
  unfold step
  split
  · exact ⟨.refl, rfl, nofun⟩
  next hlimit =>
  split
  · exact ⟨.refl, rfl, nofun⟩
  cases hnext : s.prepared? pace with
  | none => exact ⟨.refl, rfl, nofun⟩
  | some next =>
    obtain ⟨s', pace'⟩ := next
    have hbefore : Relation.ReflTransGen Move s s' ∧
        pace'.effort.warmStarted = pace.effort.warmStarted ∧
        pace'.effort.iters = pace.effort.iters ∧ pace'.sinceRefactor ≤ pace.sinceRefactor := by
      rcases prepared?_some hnext with hrefresh | ⟨rfl, rfl⟩
      · obtain ⟨hrefactor, hwarm, hiters, hfresh⟩ := refresh?_some hrefresh
        exact ⟨.single (.refactor hrefactor), hwarm, hiters, hfresh ▸ Nat.zero_le _⟩
      · exact ⟨.refl, rfl, rfl, Nat.le_refl _⟩
    obtain ⟨hmoves, hwarm, hiters, hsince⟩ := hbefore
    dsimp only
    cases ht : s'.tableau with
    | none => exact ⟨hmoves, hwarm, nofun⟩
    | some t =>
      have hprice := price_follows ht (by omega : pace'.effort.iters < s.settings.maxIter)
      refine ⟨hmoves.trans hprice.moves, hprice.warmStarted.trans hwarm, fun hnone => ?_⟩
      refine Nat.lt_of_lt_of_le (hprice.budget hnone) ?_
      unfold Pace.budget
      rw [hiters]
      omega

/-! ## Runs -/

/-- **A run makes moves only.** -/
theorem iterate_moves (s : Simplex K) (pace : Pace) (fuel : Nat) :
    Relation.ReflTransGen Move s (s.iterate pace fuel).1 ∧
      (s.iterate pace fuel).2.1.effort.warmStarted = pace.effort.warmStarted := by
  induction fuel generalizing s pace with
  | zero => exact ⟨.refl, rfl⟩
  | succ fuel ih =>
    have hstep := step_follows s pace
    unfold iterate
    rcases hout : s.step pace with ⟨s', pace', _ | status⟩
    · rw [hout] at hstep
      obtain ⟨hmoves, hwarm⟩ := ih s' pace'
      exact ⟨hstep.moves.trans hmoves, hwarm.trans hstep.warmStarted⟩
    · rw [hout] at hstep
      exact ⟨hstep.moves, hstep.warmStarted⟩

/-! ## What no move changes -/

/-- Two states of a solver for one program. -/
structure Alike (s s' : Simplex K) : Prop where
  problem : s'.problem = s.problem
  settings : s'.settings = s.settings
  cost : s'.cost = s.cost
  lower : s'.lower = s.lower
  upper : s'.upper = s.upper
  base : s'.base = s.base
  status : s'.status.size = s.status.size
  values : s'.values.size = s.values.size

omit [Scalar K] in
theorem Alike.refl (s : Simplex K) : Alike s s := ⟨rfl, rfl, rfl, rfl, rfl, rfl, rfl, rfl⟩

omit [Scalar K] in
theorem Alike.trans {s'' : Simplex K} (h : Alike s s') (h' : Alike s' s'') : Alike s s'' where
  problem := h'.problem.trans h.problem
  settings := h'.settings.trans h.settings
  cost := h'.cost.trans h.cost
  lower := h'.lower.trans h.lower
  upper := h'.upper.trans h.upper
  base := h'.base.trans h.base
  status := h'.status.trans h.status
  values := h'.values.trans h.values

theorem recompute_alike (s : Simplex K) : Alike s s.recompute := by
  unfold recompute
  cases s.tableau with
  | none => exact ⟨rfl, rfl, rfl, rfl, rfl, rfl, rfl, Array.size_mapIdx⟩
  | some t =>
    refine ⟨rfl, rfl, rfl, rfl, rfl, rfl, rfl, ?_⟩
    refine fold_induction (fun _ (values : Array K) => values.size = s.values.size)
      Array.size_mapIdx fun i _ values hvalues => ?_
    rw [Array.size_setIfInBounds, hvalues]

theorem shift_alike (s : Simplex K) (t : Tableau K) (j : Nat) (dir step : K) :
    Alike s (s.shift t j dir step) := by
  unfold shift
  split_ifs
  · exact .refl s
  · refine ⟨rfl, rfl, rfl, rfl, rfl, rfl, rfl, ?_⟩
    refine fold_induction (fun _ (values : Array K) => values.size = s.values.size)
      Array.size_modify fun i _ values hvalues => ?_
    dsimp only
    split_ifs
    · rw [Array.size_modify, hvalues]
    · exact hvalues

theorem Move.alike (h : Move s s') : Alike s s' := by
  cases h with
  | refactor h =>
    unfold refactor? at h
    obtain ⟨t, -, hrest⟩ := Option.bind_eq_some_iff.mp h
    obtain ⟨t', -, hsome⟩ := Option.bind_eq_some_iff.mp hrest
    obtain rfl := Option.some.inj hsome
    have hfresh : Alike s { s with tableau := some t' } := ⟨rfl, rfl, rfl, rfl, rfl, rfl, rfl, rfl⟩
    exact hfresh.trans (recompute_alike _)
  | @flip t j _ dir step =>
    refine (shift_alike s t j dir step).trans ⟨rfl, rfl, rfl, rfl, rfl, rfl, ?_, ?_⟩
    · exact Array.size_setIfInBounds
    · exact Array.size_setIfInBounds
  | @exchange t j _ _ dir step =>
    refine (shift_alike s t j dir step).trans ⟨rfl, rfl, rfl, rfl, rfl, rfl, ?_, ?_⟩
    · exact Array.size_setIfInBounds.trans Array.size_setIfInBounds
    · exact Array.size_setIfInBounds

theorem alike_of_moves (h : Relation.ReflTransGen Move s s') : Alike s s' := by
  induction h with
  | refl => exact .refl s
  | tail _ hlast ih => exact ih.trans hlast.alike

/-! ## Starting -/

theorem new_eq {p : Problem K} {c : Settings K} (h : p.validate = .ok ()) : Simplex.new p c = .ok
    { problem := p
      settings := c
      cost := p.cost ++ Array.replicate p.numRows 0
      lower := p.colLower ++ p.rowLower
      upper := p.colUpper ++ p.rowUpper
      base := (Tableau.constraintRows? p.a).getD #[]
      status := Array.replicate (p.numCols + p.numRows) .basic
      values := Array.replicate (p.numCols + p.numRows) 0 } := by
  unfold Simplex.new
  rw [h]
  rfl

theorem validate_of_new {p : Problem K} {c : Settings K} (h : Simplex.new p c = .ok s) :
    p.validate = .ok () := by
  cases hvalidate : p.validate with
  | ok => rfl
  | error e =>
    unfold Simplex.new at h
    rw [hvalidate] at h
    cases h

/-- The statuses that a given basis is installed with. -/
def installed (s : Simplex K) (b : Basis) : Array ColumnStatus :=
  (b.all.zipIdx.map fun (st, j) => if st = .basic then .basic else s.sanitizeNonbasic j st).toArray

theorem installed_size (b : Basis) : (s.installed b).size = b.all.length := by simp [installed]

theorem installed_getD {b : Basis} (hj : j < b.all.length) : (s.installed b).getD j .basic =
    if b.all.getD j .basic = .basic then .basic
    else s.sanitizeNonbasic j (b.all.getD j .basic) := by
  simp [installed, hj]

/-- The tableau of the columns that are then basic, if there is one. -/
def factored? (s : Simplex K) (b : Basis) : Option (Tableau K) :=
  Tableau.factor? s.base
    ((List.range s.width).filter fun j => (s.installed b).getD j .basic == .basic)
    s.settings.tolPivot

theorem installBasis_eq (b : Basis) : s.installBasis b =
    if b.cols.length ≠ s.numCols ∨ b.rows.length ≠ s.numRows ∨ b.numBasic ≠ s.numRows then
      (s, false)
    else
      match s.factored? b with
      | some t => ({ s with status := s.installed b, tableau := some t }, true)
      | none => ({ s with status := s.installed b }, false) := by
  unfold installBasis factored? installed
  rfl

/-- **A run with enough budget ends because of a verdict**, never for want of steps. -/
theorem iterate_ends (s : Simplex K) (pace : Pace) (fuel : Nat)
    (hfuel : pace.budget s.settings.maxIter < fuel) :
    ∃ (s₁ : Simplex K) (pace₁ : Pace), s₁.step pace₁ =
      ((s.iterate pace fuel).1, (s.iterate pace fuel).2.1, some (s.iterate pace fuel).2.2) := by
  induction fuel generalizing s pace with
  | zero => exact (Nat.not_lt_zero _ hfuel).elim
  | succ fuel ih =>
    have hstep := step_follows s pace
    unfold iterate
    rcases hout : s.step pace with ⟨s', pace', _ | status⟩
    · rw [hout] at hstep
      refine ih s' pace' ?_
      rw [(alike_of_moves hstep.moves).settings]
      exact Nat.lt_of_lt_of_le (hstep.budget rfl) (Nat.le_of_lt_succ hfuel)
    · exact ⟨s, pace, hout⟩

theorem solve_eq (s : Simplex K) (warmStart : Option Basis) : s.solve warmStart =
    let run := (s.start warmStart).1.iterate { effort := { warmStarted := (s.start warmStart).2 } }
      (2 * (s.start warmStart).1.settings.maxIter + 2)
    (run.1.solution run.2.2 run.2.1.effort, run.1) := rfl

/-- The number of steps that a solve allows itself is never what ends it. -/
theorem solve_ends (s : Simplex K) (warmStart : Option Basis) :
    ∃ (s₁ : Simplex K) (pace₁ pace₂ : Pace),
      s₁.step pace₁ = ((s.solve warmStart).2, pace₂, some (s.solve warmStart).1.status) := by
  have hends := iterate_ends (s.start warmStart).1
    { effort := { warmStarted := (s.start warmStart).2 } }
    (2 * (s.start warmStart).1.settings.maxIter + 2) (by simp [Pace.budget])
  obtain ⟨s₁, pace₁, hstep⟩ := hends
  exact ⟨s₁, pace₁, _, hstep⟩

end Simplex

end BranchAndCut.Lp

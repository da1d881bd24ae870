import BranchAndCut.Proofs.Exact
import BranchAndCut.Proofs.Lp.Steps

/-! # Verdicts on fresh tableaus

A tableau that has been carried through exchanges drifts away from the constraint rows. The
log of a solve tells when it was computed anew, which columns were exchanged and which moved
to their opposite bounds; the counters of the solve agree with it. A program is called
optimal or infeasible only on a tableau computed from the constraint rows for the basis that
was installed, or for the one at the last refactoring, after which nothing but moves to
opposite bounds has happened. -/

namespace BranchAndCut.Lp

/-- What happens to the state of a solver. -/
inductive Event where
  /-- The tableau and the values are computed afresh, for these basic columns. -/
  | refactored (basic : List Nat)
  /-- A column moves to its opposite bound. -/
  | flipped (j : Nat)
  /-- A column is exchanged for the basic one of a row. -/
  | exchanged (r j : Nat)
deriving DecidableEq, Repr

namespace Event

def isFlip : Event → Bool
  | flipped _ => true
  | _ => false

/-- Whether a column moves: flips and exchanges. -/
def isMove : Event → Bool
  | refactored _ => false
  | _ => true

end Event

namespace Simplex

variable {K : Type} [Scalar K] {s s' u v w : Simplex K} {t : Tableau K} {pace pace' : Pace} {j : Nat} {dir : K}
  {log flips : List Event} {e : Event}

/-- What an event makes of a state. -/
inductive Takes (s : Simplex K) : Event → Simplex K → Prop
  | refactored {t : Tableau K} {s' : Simplex K} (ht : s.tableau = some t) (h : s.refactor? = some s') :
      Takes s (.refactored t.basis) s'
  | flipped {t : Tableau K} {j : Nat} {d dir step : K} {phase1 bland : Bool} (ht : s.tableau = some t)
      (hdir : s.improvingDirection? j d = some dir) (hratio : s.ratioTest t j dir phase1 bland = .ownBound step) :
      Takes s (.flipped j) (s.flip t j dir step)
  | exchanged {t : Tableau K} {j r : Nat} {d dir step bound : K} {phase1 bland atUpper : Bool}
      (ht : s.tableau = some t) (hdir : s.improvingDirection? j d = some dir)
      (hratio : s.ratioTest t j dir phase1 bland = .row r step bound atUpper) :
      Takes s (.exchanged r j) ((s.shift t j dir step).exchange t r j bound atUpper)

/-- The state after the events of a log, the newest first. -/
inductive Logged (u : Simplex K) : List Event → Simplex K → Prop
  | start : Logged u [] u
  | next {log : List Event} {s s' : Simplex K} {e : Event} (h : Logged u log s) (he : Takes s e s') :
      Logged u (e :: log) s'

/-! ## The log of a run -/

/-- The tableau is computed anew where that is counted. -/
def refreshed (t : Tableau K) (before after : Pace) : List Event :=
  if after.effort.refactors = before.effort.refactors then [] else [.refactored t.basis]

/-- The move of an entering column. -/
def moved (s : Simplex K) (t : Tableau K) (j : Nat) (dir : K) (phase1 bland : Bool) : List Event :=
  match s.ratioTest t j dir phase1 bland with
  | .ownBound _ => [.flipped j]
  | .row r _ _ _ => [.exchanged r j]
  | .nothing => []

/-- What happens after pricing. -/
def priceLog (s : Simplex K) (t : Tableau K) (pace : Pace) : List Event :=
  let priced := s.pricing t pace
  (match priced.entering? with
    | some (j, dir) => s.moved t j dir priced.phase1 priced.bland
    | none => []) ++ refreshed t pace (s.price t pace).2.1

/-- What happens in a step that no limit forbids. -/
def stepLog (s : Simplex K) (pace : Pace) : List Event :=
  if s.settings.maxIter ≤ pace.effort.iters || s.timeIsUp pace then []
  else
    match s.tableau, s.prepared? pace with
    | some t, some (s', pace') => s'.tableau.elim [] (s'.priceLog · pace') ++ refreshed t pace pace'
    | _, _ => []

/-- What happens in a run of steps, the newest first. -/
def iterateLog (s : Simplex K) (pace : Pace) : Nat → List Event
  | 0 => []
  | fuel + 1 =>
    match s.step pace with
    | (_, _, some _) => s.stepLog pace
    | (s', pace', none) => s'.iterateLog pace' fuel ++ s.stepLog pace

/-- What happens in a solve, the newest first. -/
def solveLog (s : Simplex K) (warmStart : Option Basis) : List Event :=
  let (s, warm) := s.start warmStart
  s.iterateLog { effort := { warmStarted := warm } } (2 * s.settings.maxIter + 2)

/-- The tableau is that of some basic columns, computed from the constraint rows, and all
values have been computed from it. -/
def Computed (s : Simplex K) (basic : List Nat) (tolPivot : K) : Prop :=
  ∃ (old : Simplex K) (t : Tableau K), Tableau.factor? s.base basic tolPivot = some t ∧
    s = recompute { old with tableau := some t }

/-! ## What events keep -/

theorem Takes.alike (h : Takes s e s') : Alike s s' := by
  cases h with
  | refactored ht h => exact (Move.refactor h).alike
  | flipped ht hdir hratio => exact (Move.flip ht hdir hratio).alike
  | exchanged ht hdir hratio => exact (Move.exchange ht hdir hratio).alike

theorem Logged.alike (h : Logged u log s) : Alike u s := by
  induction h with
  | start => exact .refl u
  | next _ he ih => exact ih.trans he.alike

theorem recompute_tableau (s : Simplex K) : s.recompute.tableau = s.tableau := by
  unfold recompute
  cases s.tableau with
  | none => rfl
  | some t => rfl

theorem shift_tableau (s : Simplex K) (t : Tableau K) (j : Nat) (dir step : K) :
    (s.shift t j dir step).tableau = s.tableau := by
  unfold shift
  split_ifs
  · rfl
  · rfl

theorem Computed.tableau {basic : List Nat} {tolPivot : K} (h : s.Computed basic tolPivot) :
    s.tableau = Tableau.factor? s.base basic tolPivot := by
  obtain ⟨old, t, hfactor, rfl⟩ := h
  rw [hfactor, recompute_tableau]

/-- Moves to opposite bounds leave the tableau alone. -/
theorem Logged.tableau_of_flips (h : Logged u flips s) (hflips : ∀ e ∈ flips, e.isFlip = true) :
    s.tableau = u.tableau := by
  induction h with
  | start => rfl
  | next _ he ih =>
    obtain ⟨hlast, hrest⟩ := List.forall_mem_cons.mp hflips
    rw [← ih hrest]
    cases he with
    | refactored => cases hlast
    | flipped => exact shift_tableau _ _ _ _ _
    | exchanged => cases hlast

theorem Takes.computed {basic : List Nat} (h : Takes s (.refactored basic) s') :
    s'.Computed basic s.settings.tolPivot := by
  have hbase := h.alike.base
  cases h with
  | refactored ht h =>
    unfold refactor? at h
    rw [ht, Option.bind_eq_bind, Option.bind_some] at h
    obtain ⟨t', hfactor, hsome⟩ := Option.bind_eq_some_iff.mp h
    obtain rfl := Option.some.inj hsome
    exact ⟨s, t', hbase ▸ hfactor, rfl⟩

/-! ## The counters and the log -/

/-- Nothing but moves to opposite bounds has happened since the tableau was computed: at the
start, or by the last refactoring. -/
def Fresh (u : Simplex K) (log : List Event) (s : Simplex K) : Prop :=
  ∃ flips earlier w, log = flips ++ earlier ∧ (∀ e ∈ flips, e.isFlip = true) ∧ Logged u earlier w ∧
    Logged w flips s ∧ (earlier = [] ∨ ∃ basic before, earlier = .refactored basic :: before)

/-- A state with its log: moves are counted as iterations, exchanges as long as the tableau
has not been computed anew, and a verdict is confirmed on such a tableau only. -/
structure Traced (u : Simplex K) (maxIter : Nat) (log : List Event) (s : Simplex K) (pace : Pace) : Prop where
  logged : Logged u log s
  moves : log.countP Event.isMove ≤ pace.effort.iters
  iters : pace.effort.iters ≤ maxIter
  fresh : pace.sinceRefactor = 0 → Fresh u log s
  verified : pace.verified = true → pace.sinceRefactor = 0

/-- What a step keeps: a state with its log, and a fresh one under a verdict that is
final. -/
structure Keeps (u : Simplex K) (maxIter : Nat) (log : List Event) (out : Outcome K) : Prop where
  traced : Traced u maxIter log out.1 out.2.1
  verdict : out.2.2 = some .optimal ∨ out.2.2 = some .infeasible →
    out.2.1.sinceRefactor = 0 ∧ ∃ t, out.1.tableau = some t

theorem Fresh.flip (h : Fresh u log s) (he : Takes s (.flipped j) s') : Fresh u (.flipped j :: log) s' := by
  obtain ⟨flips, earlier, w, rfl, hflips, hearlier, hlogged, hlast⟩ := h
  exact ⟨.flipped j :: flips, earlier, w, rfl, List.forall_mem_cons.mpr ⟨rfl, hflips⟩, hearlier, hlogged.next he, hlast⟩

variable {maxIter : Nat}

/-- No refactoring has been counted. -/
theorem Traced.same (h : Traced u maxIter log s pace') (heq : pace'.effort.refactors = pace.effort.refactors) :
    Traced u maxIter (refreshed t pace pace' ++ log) s pace' := by
  unfold refreshed
  rw [if_pos heq]
  exact h

/-- A refactoring is counted. -/
theorem Traced.refresh {before : Pace} (h : Traced u maxIter log s pace)
    (heq : pace.effort.refactors = before.effort.refactors) (ht : s.tableau = some t)
    (hrefresh : s.refresh? pace = some (s', pace')) :
    Traced u maxIter (Simplex.refreshed t before pace' ++ log) s' pace' := by
  obtain ⟨s₁, hrefactor, hnext⟩ := Option.map_eq_some_iff.mp hrefresh
  obtain ⟨rfl, rfl⟩ := Prod.mk.inj hnext
  have hlogged := h.logged.next (.refactored ht hrefactor)
  unfold Simplex.refreshed
  rw [if_neg (heq ▸ Nat.succ_ne_self _), List.singleton_append]
  refine ⟨hlogged, ?_, h.iters, fun _ => ?_, fun _ => rfl⟩
  · rw [List.countP_cons_of_neg Bool.false_ne_true]
    exact h.moves
  · exact ⟨[], _, s₁, rfl, nofun, hlogged, .start, .inr ⟨t.basis, log, rfl⟩⟩

theorem Traced.advance (h : Traced u maxIter log s pace) (ht : s.tableau = some t) {d : K}
    (hdir : s.improvingDirection? j d = some dir) (hlt : pace.effort.iters < maxIter) (phase1 bland : Bool) :
    Keeps u maxIter (s.moved t j dir phase1 bland ++ refreshed t pace (s.advance t pace j dir phase1 bland).2.1 ++ log)
      (s.advance t pace j dir phase1 bland) := by
  -- the iteration has been counted before the column moves
  have hcounted : ∀ pace' : Pace, pace'.effort.iters = pace.effort.iters + 1 →
      pace'.sinceRefactor = pace.sinceRefactor → pace'.verified = false → Traced u maxIter log s pace' :=
    fun pace' hiters hsince hverified => ⟨h.logged, hiters ▸ h.moves.trans (Nat.le_succ _), hiters ▸ hlt,
      fun hzero => h.fresh (hsince ▸ hzero), fun htrue => by rw [hverified] at htrue; cases htrue⟩
  unfold Simplex.advance moved
  dsimp only
  cases hratio : s.ratioTest t j dir phase1 bland with
  | nothing =>
    dsimp only
    split
    · split
      · next s' pace' hrefresh =>
        split at hrefresh
        · refine ⟨.refresh ?_ ?_ ht hrefresh, nofun⟩
          · exact hcounted _ rfl rfl rfl
          · rfl
        · cases hrefresh
      · exact ⟨.same (hcounted _ rfl rfl rfl) rfl, nofun⟩
    · exact ⟨.same (hcounted _ rfl rfl rfl) rfl, nofun⟩
  | ownBound step =>
    have htakes : Takes s (.flipped j) (s.flip t j dir step) := .flipped ht hdir hratio
    unfold Simplex.refreshed
    rw [if_pos rfl]
    refine ⟨⟨h.logged.next htakes, ?_, hlt, fun hzero => (h.fresh hzero).flip htakes, nofun⟩, nofun⟩
    rw [List.append_nil, List.singleton_append, List.countP_cons_of_pos rfl]
    exact Nat.succ_le_succ h.moves
  | row r step bound atUpper =>
    unfold Simplex.refreshed
    rw [if_pos rfl]
    refine ⟨⟨h.logged.next (.exchanged ht hdir hratio), ?_, hlt, nofun, nofun⟩, nofun⟩
    rw [List.append_nil, List.singleton_append, List.countP_cons_of_pos rfl]
    exact Nat.succ_le_succ h.moves

theorem Traced.price (h : Traced u maxIter log s pace) (ht : s.tableau = some t)
    (hlt : pace.effort.iters < maxIter) : Keeps u maxIter (s.priceLog t pace ++ log) (s.price t pace) := by
  unfold priceLog Simplex.price
  dsimp only
  cases hentering : (s.pricing t pace).entering? with
  | some choice =>
    obtain ⟨d, hdir⟩ := pricing_improves hentering
    exact h.advance ht hdir hlt _ _
  | none =>
    dsimp only
    split
    · cases hrefresh : s.refresh? pace with
      | some next =>
        have htraced := h.refresh rfl ht hrefresh
        obtain ⟨-, -, -, hzero⟩ := refresh?_some hrefresh
        exact ⟨⟨htraced.logged, htraced.moves, htraced.iters, htraced.fresh, fun _ => hzero⟩, nofun⟩
      | none => exact ⟨h.same rfl, nofun⟩
    · next hfinal =>
      refine ⟨h.same rfl, fun _ => ⟨?_, t, ht⟩⟩
      by_contra hsince
      refine hfinal (Bool.and_eq_true_iff.mpr ⟨decide_eq_true (Nat.pos_of_ne_zero hsince), ?_⟩)
      rw [Bool.not_eq_true', ← Bool.not_eq_true]
      exact fun hverified => hsince (h.verified hverified)

/-- **A step keeps the counters in agreement with the log**, and a verdict is given on a fresh
tableau. -/
theorem Traced.step (h : Traced u s.settings.maxIter log s pace) :
    Keeps u s.settings.maxIter (s.stepLog pace ++ log) (s.step pace) := by
  unfold Simplex.step stepLog
  by_cases hiters : s.settings.maxIter ≤ pace.effort.iters
  · rw [if_pos hiters, if_pos (by simp [hiters])]
    exact ⟨h, nofun⟩
  by_cases htime : s.timeIsUp pace = true
  · rw [if_neg hiters, if_pos htime, if_pos (by simp [htime])]
    exact ⟨h, nofun⟩
  rw [if_neg hiters, if_neg htime, if_neg (by simp [hiters, htime])]
  have hlt : pace.effort.iters < s.settings.maxIter := Nat.lt_of_not_le hiters
  cases hnext : s.prepared? pace with
  | none =>
    cases s.tableau with
    | none => exact ⟨h, nofun⟩
    | some t => exact ⟨h, nofun⟩
  | some next =>
    obtain ⟨s', pace'⟩ := next
    cases ht : s.tableau with
    | none =>
      rcases prepared?_some hnext with hrefresh | ⟨rfl, rfl⟩
      · obtain ⟨hrefactor, -⟩ := refresh?_some hrefresh
        unfold refactor? at hrefactor
        rw [ht] at hrefactor
        cases hrefactor
      · dsimp only
        rw [ht]
        exact ⟨h, nofun⟩
    | some t =>
      have hprepared : Traced u s.settings.maxIter (refreshed t pace pace' ++ log) s' pace' ∧
          pace'.effort.iters = pace.effort.iters := by
        rcases prepared?_some hnext with hrefresh | ⟨rfl, rfl⟩
        · exact ⟨h.refresh rfl ht hrefresh, (refresh?_some hrefresh).2.2.1⟩
        · exact ⟨h.same rfl, rfl⟩
      obtain ⟨h', hsame⟩ := hprepared
      dsimp only
      cases ht' : s'.tableau with
      | none => exact ⟨h', nofun⟩
      | some t' =>
        rw [Option.elim_some, List.append_assoc]
        exact h'.price ht' (hsame ▸ hlt)

/-- **A run keeps the counters in agreement with its log.** -/
theorem Traced.iterate (fuel : Nat) (h : Traced u s.settings.maxIter log s pace) :
    Traced u s.settings.maxIter (s.iterateLog pace fuel ++ log) (s.iterate pace fuel).1 (s.iterate pace fuel).2.1 ∧
      ((s.iterate pace fuel).2.2 = .optimal ∨ (s.iterate pace fuel).2.2 = .infeasible →
        Fresh u (s.iterateLog pace fuel ++ log) (s.iterate pace fuel).1 ∧
          ∃ t, (s.iterate pace fuel).1.tableau = some t) := by
  induction fuel generalizing s pace log with
  | zero => exact ⟨h, nofun⟩
  | succ fuel ih =>
    obtain ⟨htraced, hverdict⟩ := h.step
    unfold Simplex.iterate iterateLog
    rcases hout : s.step pace with ⟨s', pace', _ | status⟩
    · rw [hout] at htraced
      have hsettings : s'.settings = s.settings := by
        rw [htraced.logged.alike.settings, h.logged.alike.settings]
      dsimp only at htraced ⊢
      rw [← hsettings] at htraced ⊢
      rw [List.append_assoc]
      exact ih htraced
    · rw [hout] at htraced hverdict
      refine ⟨htraced, fun hfinal => ?_⟩
      obtain ⟨hzero, ht⟩ := hverdict (hfinal.imp (congrArg some) (congrArg some))
      exact ⟨htraced.fresh hzero, ht⟩

/-! ## Solves -/

/-- The basic columns with which a solve starts, and the pivot tolerance with which they are
factored. -/
def startBasis (s : Simplex K) (warmStart : Option Basis) : List Nat × K :=
  if (s.start warmStart).2 then
    ((List.range s.width).filter fun j => (s.start warmStart).1.statusOf j == .basic, s.settings.tolPivot)
  else ((List.range s.numRows).map (s.numCols + ·), 0)

theorem recompute_status (s : Simplex K) : s.recompute.status = s.status := by
  unfold recompute
  cases s.tableau with
  | none => rfl
  | some t => rfl

/-- A solve starts from the tableau of these columns, if they have one. -/
theorem start_eq (s : Simplex K) (warmStart : Option Basis) : ∃ status, (s.start warmStart).1 =
    recompute { s with status
                       tableau := Tableau.factor? s.base (s.startBasis warmStart).1 (s.startBasis warmStart).2 } := by
  have hcold : ∀ status (warm : Option Basis), s.start warm = ({ s with status }.installSlackBasis.recompute, false) →
      ∃ status', (s.start warm).1 = recompute { s with
        status := status'
        tableau := Tableau.factor? s.base (s.startBasis warm).1 (s.startBasis warm).2 } := by
    intro status warm hstart
    unfold startBasis
    rw [hstart, if_neg Bool.false_ne_true]
    exact ⟨_, rfl⟩
  cases warmStart with
  | none => exact hcold s.status none rfl
  | some b =>
    have hstart : s.start (some b) = if (s.installBasis b).2 then ((s.installBasis b).1.recompute, true)
        else ((s.installBasis b).1.installSlackBasis.recompute, false) := rfl
    rw [installBasis_eq] at hstart
    by_cases hshape : b.cols.length ≠ s.numCols ∨ b.rows.length ≠ s.numRows ∨ b.numBasic ≠ s.numRows
    · rw [if_pos hshape] at hstart
      exact hcold s.status (some b) hstart
    rw [if_neg hshape] at hstart
    cases hfactor : s.factored? b with
    | none =>
      rw [hfactor] at hstart
      exact hcold (s.installed b) (some b) hstart
    | some t =>
      rw [hfactor] at hstart
      refine ⟨s.installed b, ?_⟩
      unfold startBasis statusOf
      rw [hstart]
      dsimp only
      rw [if_pos rfl, if_pos rfl, recompute_status]
      unfold factored? at hfactor
      rw [hfactor]

/-- **Final verdicts rest on a fresh tableau.** A solve logs at most as many moves as its
settings allow. If it ends with an optimum or a proof of infeasibility, then since the basis
was installed, or the tableau was last computed anew, columns have moved to their opposite
bounds only: the tableau is that of those basic columns, computed from the constraint rows,
and the values are those computed from it but for these moves. -/
theorem solve_rests_on_fresh (s : Simplex K) (warmStart : Option Basis) :
    let u := (s.start warmStart).1
    let v := (s.solve warmStart).2
    let status := (s.solve warmStart).1.status
    let log := s.solveLog warmStart
    Logged u log v ∧ log.countP Event.isMove ≤ s.settings.maxIter ∧
      (status = .optimal ∨ status = .infeasible →
        ∃ flips earlier w basic tolPivot, log = flips ++ earlier ∧ (∀ e ∈ flips, e.isFlip = true) ∧
          Logged u earlier w ∧ Logged w flips v ∧
          (earlier = [] ∧ (basic, tolPivot) = s.startBasis warmStart ∨
            ∃ before, earlier = .refactored basic :: before ∧ tolPivot = s.settings.tolPivot) ∧
          w.Computed basic tolPivot ∧ v.tableau = Tableau.factor? s.base basic tolPivot) := by
  intro u v status log
  obtain ⟨started, hu⟩ := s.start_eq warmStart
  have hsettings : u.settings = s.settings := (congrArg settings hu).trans (recompute_alike _).settings
  have hbase : u.base = s.base := (congrArg base hu).trans (recompute_alike _).base
  -- nothing has been logged when the solve starts
  have hstart : Traced u u.settings.maxIter [] u { effort := { warmStarted := (s.start warmStart).2 } } :=
    ⟨.start, Nat.le_refl _, Nat.zero_le _, fun _ => ⟨[], [], u, rfl, nofun, .start, .start, .inl rfl⟩, nofun⟩
  obtain ⟨htraced, hverdict⟩ := hstart.iterate (2 * u.settings.maxIter + 2)
  rw [List.append_nil] at htraced hverdict
  refine ⟨htraced.logged, hsettings ▸ htraced.moves.trans htraced.iters, fun hfinal => ?_⟩
  obtain ⟨⟨flips, earlier, w, hlog, hflips, hearlier, hlogged, hcomputed⟩, t, ht⟩ := hverdict hfinal
  have htableau : v.tableau = w.tableau := hlogged.tableau_of_flips hflips
  rcases hcomputed with rfl | ⟨basic, before, rfl⟩
  · cases hearlier
    have hfactor : u.tableau = Tableau.factor? s.base (s.startBasis warmStart).1 (s.startBasis warmStart).2 :=
      (congrArg tableau hu).trans (recompute_tableau _)
    have hsome := hfactor.symm.trans (htableau.symm.trans ht)
    refine ⟨flips, [], u, _, _, hlog, hflips, .start, hlogged, .inl ⟨rfl, rfl⟩, ?_, htableau.trans hfactor⟩
    exact ⟨{ s with status := started }, t, hbase ▸ hsome, hsome ▸ hu⟩
  · cases hearlier with
    | next hbefore hlast =>
      have hw := hlast.computed
      rw [hbefore.alike.settings, hsettings] at hw
      refine ⟨flips, _, w, basic, s.settings.tolPivot, hlog, hflips, hbefore.next hlast, hlogged,
        .inr ⟨before, rfl, rfl⟩, hw, ?_⟩
      rw [htableau, hw.tableau, (hbefore.next hlast).alike.base, hbase]

/-- Two columns between `0` and `2` and a row that bounds their sum by `3`. -/
def boxed : Problem (Exact ℚ) where
  cost := #[.fin (-2), .fin (-1)]
  a := ⟨1, 2, .byColumn, #[[(0, .fin 1)], [(0, .fin 1)]]⟩
  rowLower := #[.negInf]
  rowUpper := #[.fin 3]
  colLower := #[.fin 0, .fin 0]
  colUpper := #[.fin 2, .fin 2]

/-- The first column moves to its upper bound, the second one enters in the row, and the
optimum is confirmed on a tableau computed anew. -/
theorem solve_rests_on_fresh_boxed : ∃ s : Simplex (Exact ℚ), Simplex.new boxed .default = .ok s ∧
    (s.solve none).1.status = .optimal ∧ s.solveLog none = [.refactored [1], .exchanged 0 1, .flipped 0] ∧
      Logged (s.start none).1 (s.solveLog none) (s.solve none).2 ∧
      (s.solve none).2.tableau = Tableau.factor? s.base [1] s.settings.tolPivot := by
  have hvalidate : boxed.validate = .ok () := by decide +kernel
  obtain ⟨s, hnew⟩ : ∃ s, Simplex.new boxed .default = .ok s := ⟨_, new_eq hvalidate⟩
  have hrun : (s.solve none).1.status = .optimal ∧
      s.solveLog none = [.refactored [1], .exchanged 0 1, .flipped 0] := by
    obtain rfl := Except.ok.inj ((new_eq hvalidate).symm.trans hnew)
    decide +kernel
  obtain ⟨hstatus, hlog⟩ := hrun
  obtain ⟨hlogged, -, hfresh⟩ := solve_rests_on_fresh s none
  obtain ⟨flips, earlier, w, basic, tolPivot, hsplit, hflips, -, -, hearlier, -, htableau⟩ := hfresh (.inl hstatus)
  refine ⟨s, hnew, hstatus, hlog, hlogged, ?_⟩
  rw [hlog] at hsplit
  cases flips with
  | nil =>
    rcases hearlier with ⟨rfl, -⟩ | ⟨before, rfl, rfl⟩
    · cases hsplit
    · cases hsplit
      exact htableau
  | cons e flips =>
    obtain ⟨rfl, -⟩ := List.cons.inj hsplit
    cases hflips _ List.mem_cons_self

end Simplex

end BranchAndCut.Lp

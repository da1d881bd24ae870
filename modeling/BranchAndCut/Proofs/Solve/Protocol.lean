import Mathlib.Data.List.Basic
import Mathlib.Data.List.Induction
import BranchAndCut.Proofs.Program
import BranchAndCut.Solve.Rounds

/-! # The protocol of the rounds

The rounds of operations that log their calls and answers. Which call may follow which is
told for all drivers: before the relaxation is asked for its bound, for a solution or for
cuts, it was solved to optimality and priced until nothing was added, and it has not been
changed since. So an outcome that speaks of the relaxation speaks of the one that was
solved last. -/

namespace BranchAndCut.RoundDriver

variable {K S : Type}

/-! ## The log -/

/-- A call of an operation of the rounds, and its answer. -/
inductive Call where
  | solve (status : RelaxationStatus)
  | price (added : Nat)
  | exceeded (is : Bool)
  | feasible (is : Bool)
  | separate (enforceOnly : Bool) (added : Separated)
  | propagate (alive : Bool)
deriving DecidableEq, Repr

/-- An operation that notes its call with the answer. -/
def note {α : Type} (call : α → Call) (op : EStateM (Error K) S α) : EStateM (Error K) (S × List Call) α := do
  let a ← onPart Prod.fst (fun s t => (t, s.2)) op
  modify fun s => (s.1, s.2 ++ [call a])
  pure a

/-- The operations, each of which notes its calls. -/
def logged (d : RoundDriver K S) : RoundDriver K (S × List Call) where
  solve := note .solve d.solve
  price := note .price d.price
  boundExceeded p := d.boundExceeded p.1
  isFeasible := note .feasible d.isFeasible
  separate enforceOnly := note (.separate enforceOnly) (d.separate enforceOnly)
  propagate := note .propagate d.propagate

/-- The rounds of these operations; the question for the bound is noted as well. -/
def runLogged (d : RoundDriver K S) (limits : RoundLimits) (stats : RoundStats) (fuel : Nat) :
    EStateM (Error K) (S × List Call) (RoundOutcome × RoundStats) :=
  d.logged.runAsking (note .exceeded (do return d.boundExceeded (← get))) limits stats fuel

/-- Where the second program returns, so does the first, with the same result and a log. -/
def Logs {α : Type} (logged : EStateM (Error K) (S × List Call) α) (m : EStateM (Error K) S α) : Prop :=
  ∀ s a t log, Returns m s a t → ∃ log', Returns logged (s, log) a (t, log')

namespace Logs

variable {α β : Type}

theorem pure (a : α) : Logs (Pure.pure a : EStateM (Error K) (S × List Call) α) (Pure.pure a) := by
  intro s b t log h
  obtain ⟨rfl, rfl⟩ := h.pure
  exact ⟨log, rfl⟩

theorem throw (e : Error K) : Logs (MonadExcept.throw e : EStateM (Error K) (S × List Call) α) (MonadExcept.throw e) :=
  fun _ _ _ _ h => h.throw.elim

theorem note (call : α → Call) (op : EStateM (Error K) S α) : Logs (note call op) op :=
  fun s a _ log h => ⟨log ++ [call a], Returns.andThen (.onPart_intro (w := (s, log)) h) rfl⟩

theorem bind {logged : EStateM (Error K) (S × List Call) β} {m : EStateM (Error K) S β}
    {f' : β → EStateM (Error K) (S × List Call) α} {f : β → EStateM (Error K) S α} (h : Logs logged m)
    (hf : ∀ b, Logs (f' b) (f b)) : Logs (logged >>= f') (m >>= f) := by
  intro s a t log hret
  obtain ⟨b, u, hm, hrest⟩ := hret.bind
  obtain ⟨mid, hmid⟩ := h s b u log hm
  obtain ⟨log', hlog⟩ := hf b u a t mid hrest
  exact ⟨log', hmid.andThen hlog⟩

theorem ite {c : Prop} [Decidable c] {m₁' m₂' : EStateM (Error K) (S × List Call) α} {m₁ m₂ : EStateM (Error K) S α}
    (h₁ : Logs m₁' m₁) (h₂ : Logs m₂' m₂) : Logs (if c then m₁' else m₂') (if c then m₁ else m₂) := by
  split
  · exact h₁
  · exact h₂

end Logs

theorem converge_logs (d : RoundDriver K S) (limits : RoundLimits) (stats : RoundStats) (priced fuel : Nat) :
    Logs (d.logged.converge limits stats priced fuel) (d.converge limits stats priced fuel) := by
  induction fuel generalizing stats priced with
  | zero => exact .throw _
  | succ fuel ih =>
    unfold converge
    refine .bind (.note _ _) fun status => ?_
    dsimp only
    cases verdict? status with
    | some outcome => exact .pure _
    | none => exact .ite (.pure _) (.bind (.note _ _) fun added => .ite (.pure _) (.ite (.pure _) (ih _ _)))

/-- **The log changes nothing** in the rounds. -/
theorem run_logs (d : RoundDriver K S) (limits : RoundLimits) (stats : RoundStats) (fuel : Nat) :
    Logs (d.runLogged limits stats fuel) (d.run limits stats fuel) := by
  induction fuel generalizing stats with
  | zero => exact .throw _
  | succ fuel ih =>
    unfold runLogged run runAsking
    refine .bind (converge_logs d limits stats 0 fuel) fun ⟨verdict, stats⟩ => ?_
    cases verdict with
    | some outcome => exact .pure _
    | none =>
      refine .bind (.note _ _) fun exceeded => .ite (.pure _) (.bind (.note _ _) fun is => .ite (.pure _) ?_)
      refine .bind (.note _ _) fun sep => .ite (.pure _) ?_
      exact .ite (.bind (.note _ _) fun alive => .ite (ih _) (.pure _)) (.bind (.pure _) fun alive => .ite (ih _) (.pure _))

/-! ## The protocol -/

namespace Call

/-- Whether columns were priced. -/
def isPricing : Call → Bool
  | price _ => true
  | _ => false

/-- Whether cuts were asked for. -/
def isSeparation : Call → Bool
  | separate _ _ => true
  | _ => false

/-- Whether cutting planes were asked for. -/
def isPlaneRound : Call → Bool
  | separate enforceOnly _ => !enforceOnly
  | _ => false

/-- The relaxation that was solved is left as it is. -/
def Keeps : Call → Prop
  | solve _ => False
  | separate _ added => added.cuts = 0 ∧ added.localCuts = 0
  | propagate _ => False
  | price _ | exceeded _ | feasible _ => True

/-- The relaxation is to be solved next. -/
def Reopens : Call → Prop
  | price added => added ≠ 0
  | separate _ added => added.cuts ≠ 0 ∧ added.localCuts = 0
  | propagate alive => alive = true
  | solve _ | exceeded _ | feasible _ => False

end Call

/-- The last relaxation was solved to optimality, columns were priced until none was added,
and it has been left as it is since. -/
def Converged (limits : RoundLimits) (log : List Call) : Prop :=
  ∃ before after, log = before ++ .solve .optimal :: after ∧ (∀ c ∈ after, c.Keeps) ∧
    (limits.pricing = true → (after.filter Call.isPricing).getLast? = some (.price 0))

/-- How often cutting planes were asked for. -/
def planeRounds (log : List Call) : Nat := log.countP Call.isPlaneRound

/-- How often columns were priced since cuts were last asked for. -/
def pricedSince (log : List Call) : Nat := (log.reverse.takeWhile fun c => !c.isSeparation).countP Call.isPricing

/-- What has to go before a call. -/
def Allowed (limits : RoundLimits) (before : List Call) : Call → Prop
  | .solve _ => before = [] ∨ ∃ c, before.getLast? = some c ∧ c.Reopens
  | .price _ => limits.pricing = true ∧ before.getLast? = some (.solve .optimal) ∧
      pricedSince before ≤ limits.maxPricingRounds
  | .exceeded _ => Converged limits before
  | .feasible _ => Converged limits before ∧ before.getLast? = some (.exceeded false)
  | .separate enforceOnly _ => Converged limits before ∧ before.getLast? = some (.feasible false) ∧
      if enforceOnly = true then planeRounds before = limits.maxRounds else planeRounds before < limits.maxRounds
  | .propagate _ => ∃ enforceOnly added, before.getLast? = some (.separate enforceOnly added) ∧ added.localCuts ≠ 0

/-- What an outcome says of the calls. -/
def Concludes (limits : RoundLimits) (log : List Call) : RoundOutcome → Prop
  | .infeasible => log.getLast? = some (.solve .infeasible)
  | .unbounded => log.getLast? = some (.solve .unbounded)
  | .cutoff => log.getLast? = some (.propagate false)
  | .boundExceeded => Converged limits log ∧ log.getLast? = some (.exceeded true)
  | .feasible => Converged limits log ∧ log.getLast? = some (.feasible true)
  | .fractional => Converged limits log ∧ ∃ enforceOnly, log.getLast? = some (.separate enforceOnly {})
  | .unreliable => log.getLast? = some (.solve .limitReached) ∨ log.getLast? = some (.solve .numericalTrouble) ∨
      ∃ added, log.getLast? = some (.price added) ∧ added ≠ 0 ∧ pricedSince log = limits.maxPricingRounds + 1

/-! ## Calls at the end of a log -/

section Calls

variable {limits : RoundLimits} {log : List Call} {c : Call} {rounds priced : Nat}

theorem planeRounds_snoc : planeRounds (log ++ [c]) = planeRounds log + if c.isPlaneRound = true then 1 else 0 := by
  unfold planeRounds
  rw [List.countP_append, List.countP_singleton]

theorem pricedSince_snoc : pricedSince (log ++ [c]) =
    if c.isSeparation = true then 0 else pricedSince log + if c.isPricing = true then 1 else 0 := by
  unfold pricedSince
  rw [List.reverse_append, List.reverse_singleton, List.singleton_append, List.takeWhile_cons]
  cases c.isSeparation with
  | true => rfl
  | false => exact List.countP_cons

/-- What keeps the relaxation keeps it converged; pricing may have been done before. -/
theorem Converged.snoc (h : Converged limits log) (hc : c.Keeps) (hpricing : c.isPricing = false) :
    Converged limits (log ++ [c]) := by
  obtain ⟨before, after, rfl, hkeeps, hpriced⟩ := h
  refine ⟨before, after ++ [c], by rw [List.append_assoc, List.cons_append], fun x hx => ?_, fun hp => ?_⟩
  · rcases List.mem_append.mp hx with hx | hx
    · exact hkeeps x hx
    · exact List.mem_singleton.mp hx ▸ hc
  · rw [List.filter_append, List.filter_cons_of_neg (by simp [hpricing]), List.filter_nil, List.append_nil]
    exact hpriced hp

theorem converged_of_solved (hp : limits.pricing = false) : Converged limits (log ++ [.solve .optimal]) :=
  ⟨log, [], rfl, nofun, fun h => absurd h (by rw [hp]; nofun)⟩

theorem converged_of_priced : Converged limits (log ++ [.solve .optimal] ++ [.price 0]) :=
  ⟨log, [.price 0], List.append_assoc .., by simp [Call.Keeps], fun _ => rfl⟩

/-- Every call was allowed, and cutting planes were asked for as often as counted. -/
structure Kept (limits : RoundLimits) (rounds : Nat) (log : List Call) : Prop where
  allowed : ∀ before c after, log = before ++ c :: after → Allowed limits before c
  planes : planeRounds log = rounds
  within : rounds ≤ limits.maxRounds

theorem kept_nil : Kept limits 0 [] :=
  ⟨fun before c after h => absurd h (by simp), rfl, Nat.zero_le _⟩

theorem Kept.snoc (h : Kept limits rounds log) (hc : Allowed limits log c)
    (hwithin : planeRounds (log ++ [c]) ≤ limits.maxRounds) : Kept limits (planeRounds (log ++ [c])) (log ++ [c]) := by
  refine ⟨fun before x after hlog => ?_, rfl, hwithin⟩
  rcases List.eq_nil_or_concat' after with rfl | ⟨after, last, rfl⟩
  · obtain ⟨rfl, hx⟩ := List.append_inj' hlog rfl
    cases hx
    exact hc
  · rw [← List.cons_append, ← List.append_assoc] at hlog
    obtain ⟨hlog, -⟩ := List.append_inj' hlog rfl
    exact h.allowed before x after hlog

/-- A call that does not ask for cutting planes. -/
theorem Kept.call (h : Kept limits rounds log) (hc : Allowed limits log c) (hplanes : c.isPlaneRound = false) :
    Kept limits rounds (log ++ [c]) := by
  have hsame : planeRounds (log ++ [c]) = rounds := by
    rw [planeRounds_snoc, hplanes, h.planes]
    rfl
  have hkept := h.snoc hc (hsame ▸ h.within)
  rwa [hsame] at hkept

/-- Cuts are asked for; cutting planes are so until their rounds are used up. -/
theorem Kept.separated (h : Kept limits rounds log) (hconverged : Converged limits log)
    (hlast : log.getLast? = some (.feasible false)) (sep : Separated) :
    Kept limits (if limits.maxRounds ≤ rounds then rounds else rounds + 1)
      (log ++ [.separate (decide (limits.maxRounds ≤ rounds)) sep]) := by
  by_cases hall : limits.maxRounds ≤ rounds
  · rw [if_pos hall, decide_eq_true hall]
    refine h.call ⟨hconverged, hlast, ?_⟩ rfl
    rw [if_pos rfl, h.planes]
    exact Nat.le_antisymm h.within hall
  · rw [if_neg hall, decide_eq_false hall]
    have hplanes : planeRounds (log ++ [.separate false sep]) = rounds + 1 := by
      rw [planeRounds_snoc, h.planes]
      rfl
    have hallowed : Allowed limits log (.separate false sep) := by
      refine ⟨hconverged, hlast, ?_⟩
      rw [if_neg (by decide), h.planes]
      exact Nat.lt_of_not_le hall
    exact hplanes ▸ h.snoc hallowed (hplanes ▸ Nat.lt_of_not_le hall)

/-- Where no cuts were asked for in between, columns were priced at most once more than the
limit tells. -/
theorem Kept.pricing (h : Kept limits rounds log) {before between after : List Call}
    (hlog : log = before ++ between ++ after) (hnone : ∀ c ∈ between, c.isSeparation = false) :
    between.countP Call.isPricing ≤ limits.maxPricingRounds + 1 := by
  suffices hcount : ∀ between : List Call, (∀ c ∈ between, c.isSeparation = false) → ∀ after,
      log = before ++ between ++ after → between.countP Call.isPricing ≤ limits.maxPricingRounds + 1 ∧
        between.countP Call.isPricing ≤ pricedSince (before ++ between) from (hcount between hnone after hlog).1
  intro between
  induction between using List.reverseRecOn with
  | nil => exact fun _ _ _ => ⟨Nat.zero_le _, Nat.zero_le _⟩
  | append_singleton between c ih =>
    intro hnone after hlog
    have hc := hnone c (List.mem_append_right _ (List.mem_singleton_self c))
    rw [← List.append_assoc, List.append_assoc _ [c], List.singleton_append] at hlog
    obtain ⟨hwithin, hsince⟩ := ih (fun x hx => hnone x (List.mem_append_left _ hx)) _ hlog
    have hallowed := h.allowed _ _ _ hlog
    rw [← List.append_assoc, pricedSince_snoc, hc, List.countP_append, List.countP_singleton]
    cases c with
    | price added =>
      obtain ⟨-, -, hlimit⟩ := hallowed
      exact ⟨Nat.add_le_add_right (Nat.le_trans hsince hlimit) 1, Nat.add_le_add_right hsince 1⟩
    | solve | exceeded | feasible | separate | propagate => exact ⟨hwithin, hsince⟩

end Calls

/-! ## The rounds keep the protocol -/

section Run

variable {d : RoundDriver K S} {limits : RoundLimits}

theorem ensures_note {α : Type} {call : α → Call} {op : EStateM (Error K) S α} {p : S × List Call}
    {post : α → S × List Call → Prop} (h : ∀ a t, post a (t, p.2 ++ [call a])) :
    Ensures (note call op) p post fun _ _ => True := by
  refine .bind (.onPart ?_)
  unfold Ensures
  split
  · exact h _ _
  · trivial

/-- The relaxation is to be solved. -/
structure Ready (limits : RoundLimits) (rounds priced : Nat) (log : List Call) : Prop
    extends Kept limits rounds log where
  reopened : log = [] ∨ ∃ c, log.getLast? = some c ∧ c.Reopens
  counted : pricedSince log = priced
  limited : priced ≤ limits.maxPricingRounds

/-- **Solving and pricing** end with a verdict, or with a converged relaxation. -/
theorem converge_keeps (fuel : Nat) {stats : RoundStats} {priced : Nat} {p : S × List Call}
    (h : Ready limits stats.rounds priced p.2) :
    Ensures (d.logged.converge limits stats priced fuel) p (fun r q => Kept limits r.2.rounds q.2 ∧ match r.1 with
      | some outcome => Concludes limits q.2 outcome
      | none => Converged limits q.2) fun _ _ => True := by
  induction fuel generalizing stats priced p with
  | zero => exact .throw trivial
  | succ fuel ih =>
    unfold converge
    refine .bind (ensures_note fun status t => ?_)
    have hsolved : Kept limits stats.rounds (p.2 ++ [.solve status]) := h.toKept.call h.reopened rfl
    dsimp only
    cases status with
    | optimal =>
      dsimp only [verdict?]
      split
      · next hpricing => exact .pure ⟨hsolved, converged_of_solved (by simpa using hpricing)⟩
      next hpricing =>
      have hsince : pricedSince (p.2 ++ [.solve .optimal]) = priced := by
        rw [pricedSince_snoc, h.counted]
        rfl
      refine .bind (ensures_note fun added t => ?_)
      have hpriced : Kept limits stats.rounds (p.2 ++ [.solve .optimal] ++ [.price added]) :=
        hsolved.call ⟨by simpa using hpricing, List.getLast?_concat, hsince ▸ h.limited⟩ rfl
      have hsince' : pricedSince (p.2 ++ [.solve .optimal] ++ [.price added]) = priced + 1 := by
        rw [pricedSince_snoc, hsince]
        rfl
      split
      · next hnone =>
        subst hnone
        exact .pure ⟨hpriced, converged_of_priced⟩
      next hsome =>
      split
      · next hlimit =>
        have hlimited : priced + 1 = limits.maxPricingRounds + 1 :=
          Nat.le_antisymm (Nat.succ_le_succ h.limited) hlimit
        exact .pure ⟨hpriced, .inr (.inr ⟨added, List.getLast?_concat, hsome, hsince'.trans hlimited⟩)⟩
      · next hlimit =>
        exact ih ⟨hpriced, .inr ⟨_, List.getLast?_concat, hsome⟩, hsince', Nat.not_lt.mp hlimit⟩
    | infeasible => exact .pure ⟨hsolved, List.getLast?_concat⟩
    | unbounded => exact .pure ⟨hsolved, List.getLast?_concat⟩
    | limitReached => exact .pure ⟨hsolved, .inl List.getLast?_concat⟩
    | numericalTrouble => exact .pure ⟨hsolved, .inr (.inl List.getLast?_concat)⟩

/-- The rounds, from where the relaxation is to be solved. -/
theorem run_keeps (fuel : Nat) {stats : RoundStats} {p : S × List Call} (h : Ready limits stats.rounds 0 p.2) :
    Ensures (d.runLogged limits stats fuel) p (fun r q => (∃ rounds, Kept limits rounds q.2) ∧ Concludes limits q.2 r.1)
      fun _ _ => True := by
  induction fuel generalizing stats p with
  | zero => exact .throw trivial
  | succ fuel ih =>
    unfold runLogged runAsking
    refine .bind_mono (converge_keeps fuel h) fun r q hq => ?_
    obtain ⟨verdict, stats⟩ := r
    obtain ⟨s, log⟩ := q
    obtain ⟨hkept, hconverged⟩ := hq
    cases verdict with
    | some outcome => exact .pure ⟨⟨_, hkept⟩, hconverged⟩
    | none =>
      refine .bind (ensures_note fun exceeded t => ?_)
      have hbound : Kept limits stats.rounds (log ++ [.exceeded exceeded]) := hkept.call hconverged rfl
      have hafter : Converged limits (log ++ [.exceeded exceeded]) := hconverged.snoc trivial rfl
      cases exceeded with
      | true => exact .pure ⟨⟨_, hbound⟩, hafter, List.getLast?_concat⟩
      | false =>
      refine .bind (ensures_note fun is t => ?_)
      generalize hlog : log ++ [Call.exceeded false] = bounded at hbound hafter
      have hchecked : Kept limits stats.rounds (bounded ++ [.feasible is]) :=
        hbound.call ⟨hafter, hlog ▸ List.getLast?_concat⟩ rfl
      have hstill : Converged limits (bounded ++ [.feasible is]) := hafter.snoc trivial rfl
      cases is with
      | true => exact .pure ⟨⟨_, hchecked⟩, hstill, List.getLast?_concat⟩
      | false =>
      refine .bind (ensures_note fun sep t => ?_)
      generalize hlog : bounded ++ [Call.feasible false] = checked at hchecked hstill
      have hlast : checked.getLast? = some (.feasible false) := hlog ▸ List.getLast?_concat
      have hseparated := hchecked.separated hstill hlast sep
      generalize hstats : (if decide (limits.maxRounds ≤ stats.rounds) = true then stats
        else { stats with rounds := stats.rounds + 1 }) = stats'
      have hrounds : (if limits.maxRounds ≤ stats.rounds then stats.rounds else stats.rounds + 1) = stats'.rounds := by
        rw [← hstats]
        by_cases hall : limits.maxRounds ≤ stats.rounds
        · rw [if_pos hall, if_pos (decide_eq_true hall)]
        · rw [if_neg hall, if_neg (by simpa using hall)]
      rw [hrounds] at hseparated
      generalize decide (limits.maxRounds ≤ stats.rounds) = enforceOnly at hseparated ⊢
      have hsince : pricedSince (checked ++ [.separate enforceOnly sep]) = 0 := by
        rw [pricedSince_snoc]
        rfl
      split
      · next hnone =>
        have hsep : sep = {} := by
          obtain ⟨cuts, localCuts⟩ := sep
          obtain ⟨rfl, rfl⟩ := hnone
          rfl
        exact .pure ⟨⟨_, hseparated⟩, hstill.snoc hnone rfl, enforceOnly, hsep ▸ List.getLast?_concat⟩
      next hsome =>
      dsimp only
      split
      · next hlocal =>
        refine .bind (ensures_note fun alive t => ?_)
        have hpropagated : Kept limits stats'.rounds
            (checked ++ [.separate enforceOnly sep] ++ [.propagate alive]) :=
          hseparated.call ⟨enforceOnly, sep, List.getLast?_concat, Nat.ne_of_gt hlocal⟩ rfl
        cases alive with
        | false => exact .pure ⟨⟨_, hpropagated⟩, List.getLast?_concat⟩
        | true =>
          refine ih ⟨hpropagated, .inr ⟨_, List.getLast?_concat, rfl⟩, ?_, Nat.zero_le _⟩
          rw [pricedSince_snoc, hsince]
          rfl
      · next hlocal =>
        have hzero : sep.localCuts = 0 := Nat.eq_zero_of_not_pos hlocal
        have hcuts : sep.cuts ≠ 0 := fun hcuts => hsome ⟨hcuts, hzero⟩
        refine .bind (.pure ?_)
        exact ih ⟨hseparated, .inr ⟨_, List.getLast?_concat, hcuts, hzero⟩, hsince, Nat.zero_le _⟩

end Run

/-- What the log of rounds tells that ended with an outcome. -/
structure Protocol (limits : RoundLimits) (outcome : RoundOutcome) (log : List Call) : Prop where
  /-- Before each call went what has to go before it. -/
  allowed : ∀ before c after, log = before ++ c :: after → Allowed limits before c
  planes : planeRounds log ≤ limits.maxRounds
  /-- Between two separations columns are priced only so often. -/
  pricing : ∀ before between after, log = before ++ between ++ after → (∀ c ∈ between, c.isSeparation = false) →
    between.countP Call.isPricing ≤ limits.maxPricingRounds + 1
  concludes : Concludes limits log outcome

/-- **The rounds keep the protocol**, whatever the operations answer: their outcome tells
only what was established on the relaxation that was solved last. -/
theorem run_protocol (d : RoundDriver K S) (limits : RoundLimits) (fuel : Nat) {s t : S} {outcome : RoundOutcome}
    {stats : RoundStats} (h : Returns (d.run limits {} fuel) s (outcome, stats) t) :
    ∃ log, Returns (d.runLogged limits {} fuel) (s, []) (outcome, stats) (t, log) ∧ Protocol limits outcome log := by
  obtain ⟨log, hlog⟩ := run_logs d limits {} fuel s _ t [] h
  have hready : Ready limits 0 0 [] := ⟨kept_nil, .inl rfl, rfl, Nat.zero_le _⟩
  obtain ⟨⟨rounds, hkept⟩, hconcludes⟩ := (run_keeps fuel hready).returns hlog
  exact ⟨log, hlog, hkept.allowed, hkept.planes ▸ hkept.within, fun _ _ _ => hkept.pricing, hconcludes⟩

/-- Operations whose answers depend on how many calls there were before. -/
def scripted : RoundDriver Nat Nat where
  solve := modifyGet fun n => (.optimal, n + 1)
  price := modifyGet fun n => (if n = 1 then 2 else 0, n + 1)
  boundExceeded _ := false
  isFeasible := modifyGet fun n => (false, n + 1)
  separate enforceOnly := modifyGet fun n => (if enforceOnly then {} else { cuts := 1, localCuts := 1 }, n + 1)
  propagate := modifyGet fun n => (true, n + 1)

/-- Columns, a local constraint, and in the end nothing that cuts the solution off. -/
theorem run_protocol_scripted : ∃ stats t, Returns (scripted.run ⟨1, 3, true⟩ {} 5) 0 (.fractional, stats) t ∧
    ∃ log, Returns (scripted.runLogged ⟨1, 3, true⟩ {} 5) (0, []) (.fractional, stats) (t, log) ∧
      Protocol ⟨1, 3, true⟩ .fractional log :=
  have hrun : Returns (scripted.run ⟨1, 3, true⟩ {} 5) 0 (.fractional, ⟨3, 1, 1, 2⟩) 11 := rfl
  ⟨_, _, hrun, run_protocol scripted ⟨1, 3, true⟩ 5 hrun⟩

end BranchAndCut.RoundDriver

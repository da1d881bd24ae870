import BranchAndCut.Proofs.Program
import BranchAndCut.Solve.Rounds

/-! # The rounds at a node

What the operations of a node ensure, the rounds ensure: the loops add nothing to it. An
operation is asked for what holds where the rounds go on, and for what the outcome says
where they end. -/

namespace BranchAndCut.RoundDriver

variable {K S : Type}

/-- What the operations of the rounds ensure. Before a solve `Ready` holds, after an
optimal one `Solved`, and `Ended` tells what an outcome says. -/
structure Contract (d : RoundDriver K S) (Ready Solved : S → Prop) (Ended : RoundOutcome → S → Prop)
    (fail : Error K → S → Prop) : Prop where
  ready : ∀ {s}, Ready s → fail .outOfSteps s
  solved : ∀ {s}, Solved s → fail .outOfSteps s
  solve : ∀ {s}, Ready s → Ensures d.solve s (fun status t => match verdict? status with
    | some outcome => Ended outcome t
    | none => Solved t) fail
  price : ∀ {s}, Solved s → Ensures d.price s
    (fun added t => if added = 0 then Solved t else Ready t ∧ Ended .unreliable t) fail
  exceeded : ∀ {s}, Solved s → d.boundExceeded s = true → Ended .boundExceeded s
  feasible : ∀ {s}, Solved s → Ensures d.isFeasible s
    (fun is t => if is = true then Ended .feasible t else Solved t) fail
  separate : ∀ {s}, Solved s → ∀ enforceOnly, Ensures (d.separate enforceOnly) s
    (fun sep t => if sep.cuts = 0 ∧ sep.localCuts = 0 then Ended .fractional t else Ready t) fail
  propagate : ∀ {s}, Ready s → Ensures d.propagate s
    (fun alive t => if alive = true then Ready t else Ended .cutoff t) fail

variable {d : RoundDriver K S} {Ready Solved : S → Prop} {Ended : RoundOutcome → S → Prop}
  {fail : Error K → S → Prop}

/-- Solving and pricing ends in a verdict or at an optimal solution. -/
theorem Contract.converge (h : d.Contract Ready Solved Ended fail) (limits : RoundLimits) (stats : RoundStats)
    (priced fuel : Nat) {s : S} (hs : Ready s) :
    Ensures (d.converge limits stats priced fuel) s (fun r t => match r.1 with
      | some outcome => Ended outcome t
      | none => Solved t) fail := by
  induction fuel generalizing stats priced s with
  | zero => exact .throw (h.ready hs)
  | succ fuel ih =>
    unfold RoundDriver.converge
    refine .bind_mono (h.solve hs) fun status t ht => ?_
    dsimp only
    cases hv : verdict? status with
    | some outcome =>
      rw [hv] at ht
      exact .pure ht
    | none =>
      rw [hv] at ht
      dsimp only at ht ⊢
      split
      · exact .pure ht
      · refine .bind_mono (h.price ht) fun added u hu => ?_
        split
        · next hnone =>
          rw [if_pos hnone] at hu
          exact .pure hu
        · next hsome =>
          rw [if_neg hsome] at hu
          split
          · exact .pure hu.2
          · exact ih _ _ hu.1

/-- **The rounds end** with an outcome that tells what the operations have found. -/
theorem Contract.run (h : d.Contract Ready Solved Ended fail) (limits : RoundLimits) (stats : RoundStats)
    (fuel : Nat) {s : S} (hs : Ready s) :
    Ensures (d.run limits stats fuel) s (fun r t => Ended r.1 t) fail := by
  induction fuel generalizing stats s with
  | zero => exact .throw (h.ready hs)
  | succ fuel ih =>
    unfold RoundDriver.run RoundDriver.runAsking
    refine .bind_mono (h.converge limits stats 0 fuel hs) fun r t ht => ?_
    obtain ⟨verdict, stats⟩ := r
    cases verdict with
    | some outcome => exact .pure ht
    | none =>
      refine .bind (.bind (.get (.pure ?_)))
      split
      · next hexceeded => exact .pure (h.exceeded ht hexceeded)
      refine .bind_mono (h.feasible ht) fun is u hu => ?_
      split
      · next his =>
        rw [if_pos his] at hu
        exact .pure hu
      next his =>
      rw [if_neg his] at hu
      refine .bind_mono (h.separate hu _) fun sep v hv => ?_
      by_cases hnone : sep.cuts = 0 ∧ sep.localCuts = 0
      · rw [if_pos hnone] at hv ⊢
        exact .pure hv
      rw [if_neg hnone] at hv ⊢
      dsimp only
      by_cases hlocal : 0 < sep.localCuts
      · rw [if_pos hlocal]
        refine .bind_mono (h.propagate hv) fun alive w hw => ?_
        split
        · next halive =>
          rw [if_pos halive] at hw
          exact ih _ hw
        · next hdead =>
          rw [if_neg hdead] at hw
          exact .pure hw
      · rw [if_neg hlocal]
        refine .bind (.pure ?_)
        rw [if_pos rfl]
        exact ih _ hv

end BranchAndCut.RoundDriver

import BranchAndCut.Relaxation.Oracle

/-! The rounds at a node: the relaxation is solved and priced until no column is
added; then the rounds end, or cuts are added and it starts again. Rounds of
cutting planes are limited; after that only constraints that the solution
violates may add rows. A round that adds nothing ends them. -/

namespace BranchAndCut

/-- How the rounds ended. -/
inductive RoundOutcome where
  | infeasible
  | unbounded
  /-- Propagation after local constraints emptied a domain. -/
  | cutoff
  /-- The bound of the relaxation cannot beat the incumbent. -/
  | boundExceeded
  /-- The relaxation solution is feasible. -/
  | feasible
  /-- Nothing more cuts the solution off: the node has to be split. -/
  | fractional
  /-- The relaxation could not be solved. -/
  | unreliable
deriving DecidableEq, Repr

/-- What a separation added. -/
structure Separated where
  /-- Cuts added to the relaxation, local ones included. -/
  cuts : Nat := 0
  /-- Local constraints added at the node. -/
  localCuts : Nat := 0
deriving DecidableEq, Repr

structure RoundStats where
  lpSolves : Nat := 0
  rounds : Nat := 0
  cutsAdded : Nat := 0
  columnsAdded : Nat := 0
deriving DecidableEq, Repr

structure RoundLimits where
  /-- Separation rounds before only violated constraints are enforced. -/
  maxRounds : Nat
  /-- Pricing calls between two separations. -/
  maxPricingRounds : Nat
  /-- Whether columns are priced at all. -/
  pricing : Bool
deriving DecidableEq, Repr

/-- The operations of a node that the rounds are made of, over a state `S`. -/
structure RoundDriver (K S : Type) where
  /-- Sets the bounds and solves the relaxation. -/
  solve : EStateM (Error K) S RelaxationStatus
  /-- Prices columns at the current solution; the answer is how many were added. -/
  price : EStateM (Error K) S Nat
  /-- Whether the bound of the relaxation reaches the cutoff. -/
  boundExceeded : S → Bool
  /-- Whether the relaxation solution is feasible. -/
  isFeasible : EStateM (Error K) S Bool
  /-- Separates the solution; `true` asks the constraints only. -/
  separate : Bool → EStateM (Error K) S Separated
  /-- Propagates the node again; false when it is cut off. -/
  propagate : EStateM (Error K) S Bool

namespace RoundDriver

variable {K S : Type}

/-- The verdict of the relaxation where it ends the rounds. -/
def verdict? : RelaxationStatus → Option RoundOutcome
  | .optimal => none
  | .infeasible => some .infeasible
  | .unbounded => some .unbounded
  | .limitReached => some .unreliable
  | .numericalTrouble => some .unreliable

/-- Solves and prices until no column is added. The answer is a verdict if that
ends the rounds. -/
def converge (d : RoundDriver K S) (limits : RoundLimits) (stats : RoundStats) (priced : Nat) :
    Nat → EStateM (Error K) S (Option RoundOutcome × RoundStats)
  | 0 => throw .outOfSteps
  | fuel + 1 => do
    let status ← d.solve
    let stats := { stats with lpSolves := stats.lpSolves + 1 }
    match verdict? status with
    | some outcome => pure (some outcome, stats)
    | none =>
      if !limits.pricing then pure (none, stats)
      else
        let added ← d.price
        if added = 0 then pure (none, stats)
        else
          let stats := { stats with columnsAdded := stats.columnsAdded + added }
          if limits.maxPricingRounds < priced + 1 then pure (some .unreliable, stats)
          else d.converge limits stats (priced + 1) fuel

/-- Runs rounds until they end, where `exceeded` asks for the bound of the relaxation. Both
loops take their steps from the same fuel. -/
def runAsking (d : RoundDriver K S) (exceeded : EStateM (Error K) S Bool) (limits : RoundLimits)
    (stats : RoundStats) : Nat → EStateM (Error K) S (RoundOutcome × RoundStats)
  | 0 => throw .outOfSteps
  | fuel + 1 => do
    match ← d.converge limits stats 0 fuel with
    | (some outcome, stats) => pure (outcome, stats)
    | (none, stats) =>
      if ← exceeded then pure (.boundExceeded, stats)
      else if ← d.isFeasible then pure (.feasible, stats)
      else
        let enforceOnly := decide (limits.maxRounds ≤ stats.rounds)
        let sep ← d.separate enforceOnly
        let stats := if enforceOnly then stats else { stats with rounds := stats.rounds + 1 }
        if sep.cuts = 0 ∧ sep.localCuts = 0 then pure (.fractional, stats)
        else
          let stats := { stats with cutsAdded := stats.cutsAdded + sep.cuts }
          let alive ← if 0 < sep.localCuts then d.propagate else pure true
          if alive then d.runAsking exceeded limits stats fuel else pure (.cutoff, stats)

/-- Runs rounds until they end. -/
def run (d : RoundDriver K S) (limits : RoundLimits) (stats : RoundStats) (fuel : Nat) :
    EStateM (Error K) S (RoundOutcome × RoundStats) :=
  d.runAsking (do return d.boundExceeded (← get)) limits stats fuel

end RoundDriver

end BranchAndCut

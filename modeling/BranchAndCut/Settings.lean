import BranchAndCut.Lp.Problem

/-! The settings of a solve, and which of them make no sense. -/

namespace BranchAndCut

/-- How fractional variables are scored for branching. -/
inductive BranchingRule where
  /-- By the distance of the value from the nearest integer. -/
  | mostFractional
  /-- By the gains observed in earlier branchings. -/
  | pseudocost
  /-- The first rule up to a number of processed nodes, then the second. -/
  | hybrid (switchAfter : Nat)
deriving DecidableEq, Repr

/-- Which open node is processed next. -/
inductive NodeSelection where
  | bestBound
  | depthFirst
  | bestEstimate
  /-- Every so many picks goes to the deepest node, the others to the best bound. -/
  | hybrid (diveFreq : Nat)
  /-- The deepest node until there is an incumbent, then the best bound. -/
  | twoPhase
  /-- A child of the last node for so many picks in a row, then the best bound. -/
  | plunging (maxDepth : Nat)
deriving DecidableEq, Repr

structure Settings (K : Type) where
  /-- Most nodes to process. -/
  nodeLimit : Nat := 1000000
  /-- In milliseconds. -/
  timeLimit : Option Nat := none
  maxOpenNodes : Option Nat := none
  /-- Relative and absolute gap at which a solve stops. -/
  gapTol : K
  gapAbsTol : K
  /-- Tolerance of constraint checks and of bounds. -/
  feasTol : K
  /-- Tolerance of integrality. -/
  intFeasTol : K
  branchingRule : BranchingRule := .mostFractional
  nodeSelection : NodeSelection := .bestBound
  /-- Passes of propagation per call; zero for as many as it takes. -/
  maxPropagationRounds : Nat := 100
  maxCutRoundsPerNode : Nat := 5
  maxCutRoundsRoot : Nat := 20
  cutsPerRound : Nat := 100
  /-- Least efficacy of a cut. -/
  cutViolationTol : K
  /-- Relaxation solves between two agings of slack cuts. -/
  cutCleanupFreq : Nat := 100
  gomoryCuts : Bool := true
  gomoryMaxDepth : Nat := 0
  gomoryMaxCuts : Nat := 50
  pricingEnabled : Bool := true
  maxPricingRounds : Nat := 1000
  heuristics : Bool := true
  relaxation : Lp.Settings K
  verbose : Bool := false
  /-- Nodes between two lines of progress. -/
  logFreq : Nat := 100

/-- Why settings were refused. -/
inductive SettingsFlaw where
  | negativeGap
  | toleranceRange
  | diveFrequency
  | logFrequency
deriving DecidableEq, Repr

def SettingsFlaw.text : SettingsFlaw → String
  | .negativeGap => "gap tolerances must be nonnegative"
  | .toleranceRange => "feasibility tolerances must be in (0, 0.5)"
  | .diveFrequency => "hybrid node selection needs dive_freq >= 1"
  | .logFrequency => "log_freq must be at least 1"

namespace Settings

variable {K : Type} [Scalar K]

def default : Settings K where
  gapTol := 1e-6
  gapAbsTol := 1e-9
  feasTol := 1e-6
  intFeasTol := 1e-6
  cutViolationTol := 1e-6
  relaxation := Lp.Settings.default

/-- Settings that report every node. -/
def chatty : Settings K := { (default : Settings K) with verbose := true, logFreq := 1 }

/-- Limits the time, given in seconds. -/
def withTimeLimit (s : Settings K) (seconds : K) : Settings K :=
  { s with timeLimit := some (Scalar.toUInt64 (seconds * 1000)).toNat }

/-- Turns all cutting planes off. -/
def withoutCuts (s : Settings K) : Settings K :=
  { s with gomoryCuts := false, maxCutRoundsPerNode := 0, maxCutRoundsRoot := 0 }

/-- Refuses settings under which a solve has no meaning. An undefined tolerance
fails every comparison. -/
def validate (s : Settings K) : Except SettingsFlaw Unit := do
  if !decide ((0 : K) ≤ s.gapTol) || !decide ((0 : K) ≤ s.gapAbsTol) then throw .negativeGap
  if !decide ((0 : K) < s.feasTol) || !decide ((0 : K) < s.intFeasTol) || decide (0.5 ≤ s.intFeasTol) then
    throw .toleranceRange
  if s.nodeSelection = .hybrid 0 then throw .diveFrequency
  if s.logFreq = 0 then throw .logFrequency

end Settings

end BranchAndCut

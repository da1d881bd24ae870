import BranchAndCut.Cut.Gomory
import BranchAndCut.Document.Linear

/-! Settings in documents. -/

namespace BranchAndCut

open Json

variable {K : Type}

instance : Decode BranchingRule where
  decode?
    | .str (some "most_fractional") => some .mostFractional
    | .str (some "pseudocost") => some .pseudocost
    | v => (v.get? "hybrid").map BranchingRule.hybrid

instance : Encode K BranchingRule where
  encode text
    | .mostFractional => encode text "most_fractional"
    | .pseudocost => encode text "pseudocost"
    | .hybrid n => .record [("hybrid", encode text n)]

instance : Decode NodeSelection where
  decode?
    | .str (some "best_bound") => some .bestBound
    | .str (some "depth_first") => some .depthFirst
    | .str (some "best_estimate") => some .bestEstimate
    | .str (some "two_phase") => some .twoPhase
    | v => (v.get? "hybrid").map NodeSelection.hybrid <|> (v.get? "plunging").map NodeSelection.plunging

instance : Encode K NodeSelection where
  encode text
    | .bestBound => encode text "best_bound"
    | .depthFirst => encode text "depth_first"
    | .bestEstimate => encode text "best_estimate"
    | .hybrid n => .record [("hybrid", encode text n)]
    | .twoPhase => encode text "two_phase"
    | .plunging n => .record [("plunging", encode text n)]

instance [Scalar K] [Decode K] : Decode (GomorySettings K) where
  decode? v :=
    let d := GomorySettings.default (K := K)
    some {
      maxCuts := v.get "max_cuts" d.maxCuts
      maxDepth := v.get "max_depth" d.maxDepth
      minFrac := v.get "min_frac" d.minFrac
      maxDynamism := v.get "max_dynamism" d.maxDynamism }

instance [Scalar K] [Decode K] : Decode (PoolSettings K) where
  decode? v :=
    let d := PoolSettings.default (K := K)
    some {
      maxCuts := v.get "max_cuts" d.maxCuts
      maxSlackCount := v.get "max_slack_count" d.maxSlackCount
      cleanupFreq := v.get "cleanup_freq" d.cleanupFreq
      minActivityRatio := v.get "min_activity_ratio" d.minActivityRatio }

instance : Decode RoundLimits where
  decode? v := some {
    maxRounds := v.get "max_rounds" 0
    maxPricingRounds := v.get "max_pricing_rounds" 10
    pricing := v.get "pricing" false }

/-- The defaults, or those of a verbose or a plain solve, under the fields that
are there. -/
instance [Scalar K] [Decode K] : Decode (Settings K) where
  decode? v :=
    let s : Settings K := if v.get "verbose" false then Settings.chatty else Settings.default
    let s := if v.get "plain" false then { s.withoutCuts with heuristics := false } else s
    some { s with
      nodeLimit := v.get "node_limit" s.nodeLimit
      timeLimit := v.get? "time_limit_ms" <|> s.timeLimit
      maxOpenNodes := v.get? "max_open_nodes" <|> s.maxOpenNodes
      gapTol := v.get "gap_tol" s.gapTol
      gapAbsTol := v.get "gap_abs_tol" s.gapAbsTol
      feasTol := v.get "feas_tol" s.feasTol
      intFeasTol := v.get "int_feas_tol" s.intFeasTol
      branchingRule := v.get "branching_rule" s.branchingRule
      nodeSelection := v.get "node_selection" s.nodeSelection
      maxPropagationRounds := v.get "max_propagation_rounds" s.maxPropagationRounds
      maxCutRoundsPerNode := v.get "max_cut_rounds_per_node" s.maxCutRoundsPerNode
      maxCutRoundsRoot := v.get "max_cut_rounds_root" s.maxCutRoundsRoot
      cutsPerRound := v.get "cuts_per_round" s.cutsPerRound
      cutViolationTol := v.get "cut_violation_tol" s.cutViolationTol
      cutCleanupFreq := v.get "cut_cleanup_freq" s.cutCleanupFreq
      gomoryCuts := v.get "gomory_cuts" s.gomoryCuts
      gomoryMaxDepth := v.get "gomory_max_depth" s.gomoryMaxDepth
      gomoryMaxCuts := v.get "gomory_max_cuts" s.gomoryMaxCuts
      pricingEnabled := v.get "pricing_enabled" s.pricingEnabled
      maxPricingRounds := v.get "max_pricing_rounds" s.maxPricingRounds
      heuristics := v.get "heuristics" s.heuristics
      relaxation := v.get "lp" s.relaxation
      logFreq := v.get "log_freq" s.logFreq }

/-- The fields of settings, those of the relaxation apart. -/
def Settings.fields (text : K → String) (s : Settings K) : List (String × Layout) := [
  ("node_limit", encode text s.nodeLimit),
  ("time_limit_ms", encode text s.timeLimit),
  ("max_open_nodes", encode text s.maxOpenNodes),
  ("gap_tol", encode text s.gapTol),
  ("gap_abs_tol", encode text s.gapAbsTol),
  ("feas_tol", encode text s.feasTol),
  ("int_feas_tol", encode text s.intFeasTol),
  ("branching_rule", encode text s.branchingRule),
  ("node_selection", encode text s.nodeSelection),
  ("max_propagation_rounds", encode text s.maxPropagationRounds),
  ("max_cut_rounds_per_node", encode text s.maxCutRoundsPerNode),
  ("max_cut_rounds_root", encode text s.maxCutRoundsRoot),
  ("cuts_per_round", encode text s.cutsPerRound),
  ("cut_violation_tol", encode text s.cutViolationTol),
  ("cut_cleanup_freq", encode text s.cutCleanupFreq),
  ("gomory_cuts", encode text s.gomoryCuts),
  ("gomory_max_depth", encode text s.gomoryMaxDepth),
  ("gomory_max_cuts", encode text s.gomoryMaxCuts),
  ("pricing_enabled", encode text s.pricingEnabled),
  ("max_pricing_rounds", encode text s.maxPricingRounds),
  ("heuristics", encode text s.heuristics),
  ("verbose", encode text s.verbose),
  ("log_freq", encode text s.logFreq)]

end BranchAndCut

import BranchAndCut.Benchmark.Comparison
import BranchAndCut.Benchmark.ReportFile
import BranchAndCut.Document.Names

/-! Benchmark results in documents. -/

namespace BranchAndCut.Benchmark

open Json

/-- A result as it is reported: an error, or the outcome of a solve, by default
one that found no bounds. -/
instance : Decode Result where
  decode? v :=
    let name := v.get "name" ""
    let numVars := v.get "n" 1
    let numConstraints := v.get "m" 1
    match v.get? "error" with
    | some error => some (Result.ofError name numVars numConstraints error)
    | none => do
      return Result.ofOutcome name numVars numConstraints {
        status := ← v.get? "status"
        x := none
        primalBound := v.get "primal" (1 / 0)
        dualBound := v.get "dual" (-1 / 0)
        gap := v.get "gap" (1 / 0)
        stats := {
          nodesProcessed := v.get "nodes" 0
          lpIterations := v.get "lp_iterations" 0
          cutsAdded := v.get "cuts" 0 } } (v.get "time" 0)

instance : Encode Float PairStats where
  encode text p := .record [
    ("a_only", encode text p.firstOnly),
    ("both", encode text p.both),
    ("b_only", encode text p.secondOnly),
    ("nodes", encode text p.nodes),
    ("time_ms", encode text p.time),
    ("smaller_gap", encode text p.smallerGap)]

end BranchAndCut.Benchmark

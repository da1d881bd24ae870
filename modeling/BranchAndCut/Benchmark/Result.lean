import BranchAndCut.Solve.Result

/-! Results of benchmark runs and their statistics. Times are measured, so these
are statistics of floating point numbers. -/

namespace BranchAndCut.Benchmark

/-- The result of one instance. Bounds that are infinite are left out. -/
structure Result where
  name : String
  /-- Numbers of variables and constraints. -/
  numVars : Nat
  numConstraints : Nat
  status : Status
  primalBound : Option Float
  dualBound : Option Float
  gap : Option Float
  nodes : Nat
  lpIterations : Nat
  cuts : Nat
  /-- In milliseconds. -/
  time : Float
  error : Option String := none

/-- A finite number. -/
def finite? (x : Float) : Option Float := if x.isFinite then some x else none

namespace Result

def ofOutcome (name : String) (numVars numConstraints : Nat) (out : Outcome Float) (time : Float) :
    Result where
  name := name
  numVars := numVars
  numConstraints := numConstraints
  status := out.status
  primalBound := finite? out.primalBound
  dualBound := finite? out.dualBound
  gap := finite? out.gap
  nodes := out.stats.nodesProcessed
  lpIterations := out.stats.lpIterations
  cuts := out.stats.cutsAdded
  time := time

/-- The result of a solve that failed. -/
def ofError (name : String) (numVars numConstraints : Nat) (error : String) : Result where
  name := name
  numVars := numVars
  numConstraints := numConstraints
  status := .numericalTrouble
  primalBound := none
  dualBound := none
  gap := none
  nodes := 0
  lpIterations := 0
  cuts := 0
  time := 0
  error := some error

/-- Whether the solve ended with a proof: optimal within tolerance, infeasible or
unbounded. -/
def isSolved (r : Result) : Bool :=
  r.error.isNone &&
    (r.status.isOptimal || r.status == .infeasible || r.status == .unbounded)

/-- Whether the solve stopped at a limit. -/
def isLimited (r : Result) : Bool :=
  !r.isSolved && r.error.isNone && r.status != .numericalTrouble

end Result

/-- The geometric mean of the values after a shift, shifted back. -/
def geometricMean (values : List Float) (shift : Float) : Float :=
  if values.isEmpty then 0
  else
    let logs := Scalar.sum (values.map fun t => Float.log (t + shift))
    Float.exp (logs / Float.ofNat values.length) - shift

/-- Statistics of a run. -/
structure Summary where
  total : Nat := 0
  /-- Solved with a proof. -/
  solved : Nat := 0
  /-- Stopped by a limit. -/
  limits : Nat := 0
  /-- Errors and numerical trouble. -/
  failures : Nat := 0
  /-- In seconds. -/
  totalTime : Float := 0
  /-- Of all times, in milliseconds. -/
  meanTime : Float := 0
  /-- Of the nodes of solved instances. -/
  meanNodes : Float := 0

def Summary.of (results : List Result) : Summary where
  total := results.length
  solved := results.countP Result.isSolved
  limits := results.countP Result.isLimited
  failures := results.countP fun r => !r.isSolved && !r.isLimited
  totalTime := results.foldl (fun t r => t + r.time / 1000) 0
  meanTime := geometricMean (results.map Result.time) 1
  meanNodes := geometricMean ((results.filter Result.isSolved).map fun r => Float.ofNat r.nodes) 10

/-- The results of one configuration. -/
structure Report where
  label : String
  results : List Result
  summary : Summary

/-- A report with its statistics computed. -/
def Report.of (label : String) (results : List Result) : Report where
  label := label
  results := results
  summary := Summary.of results

end BranchAndCut.Benchmark

import BranchAndCut.Benchmark.Result
import BranchAndCut.Decimal.Rounding

/-! Comparison of configurations by their reports, as statistics and as tables.
When a name occurs twice in a report, the later result counts. The widths of
columns count characters. -/

namespace BranchAndCut.Benchmark

/-- Head-to-head numbers of two configurations. -/
structure PairStats where
  /-- Instances solved by the first only, by both, by the second only. -/
  firstOnly : Nat := 0
  both : Nat := 0
  secondOnly : Nat := 0
  /-- Mean nodes and times on the instances that both solved. -/
  nodes : Float × Float := (0, 0)
  time : Float × Float := (0, 0)
  /-- Instances where neither was solved, by the side that ended with the smaller gap. -/
  smallerGap : Nat × Nat := (0, 0)

/-- The result of an instance. -/
def resultNamed? (results : List Result) (name : String) : Option Result :=
  results.reverse.find? fun r => r.name == name

/-- The names of all instances, in order. -/
def instanceNames (reports : List Report) : List String :=
  ((reports.flatMap fun r => r.results.map Result.name).mergeSort fun a b => decide (a ≤ b)).eraseReps

/-- The side on which an unsolved instance ended with the smaller gap: 0 for
neither, 1 or 2. -/
def smallerGapSide (a b : Result) : Nat :=
  if a.error.isSome || b.error.isSome then 0
  else
    let gapA := a.gap.getD Scalar.inf
    let gapB := b.gap.getD Scalar.inf
    if gapA < gapB - 1e-9 then 1 else if gapB < gapA - 1e-9 then 2 else 0

/-- Compares two configurations on the given instances. -/
def comparePair (names : List String) (a b : Report) : PairStats :=
  let pairs := names.map fun n => (resultNamed? a.results n, resultNamed? b.results n)
  let solved (r : Option Result) : Bool := r.any Result.isSolved
  let common := pairs.filterMap fun (ra, rb) =>
    match ra, rb with
    | some ra, some rb => if ra.isSolved && rb.isSolved then some (ra, rb) else none
    | _, _ => none
  let sides := pairs.filterMap fun (ra, rb) =>
    match ra, rb with
    | some ra, some rb => if ra.isSolved || rb.isSolved then none else some (smallerGapSide ra rb)
    | _, _ => none
  let nodes (rs : List Result) := geometricMean (rs.map fun r => Float.ofNat r.nodes) 10
  let times (rs : List Result) := geometricMean (rs.map Result.time) 1
  { firstOnly := pairs.countP fun (ra, rb) => solved ra && !solved rb
    both := common.length
    secondOnly := pairs.countP fun (ra, rb) => !solved ra && solved rb
    nodes := (nodes (common.map Prod.fst), nodes (common.map Prod.snd))
    time := (times (common.map Prod.fst), times (common.map Prod.snd))
    smallerGap := (sides.count 1, sides.count 2) }

/-! ## Tables -/

/-- Blanks after a text up to a width. -/
def padRight (width : Nat) (s : String) : String := s ++ String.ofList (List.replicate (width - s.length) ' ')

/-- Blanks before a text up to a width. -/
def padLeft (width : Nat) (s : String) : String := String.ofList (List.replicate (width - s.length) ' ') ++ s

/-- A line of one character. -/
def rule (c : Char) (width : Nat) : String := String.ofList (List.replicate width c)

/-- Lines, each with its end. -/
def lines (l : List String) : String := String.join (l.map (· ++ "\n"))

/-- One line per configuration, under a heading. -/
def summaryTable (reports : List Report) : String :=
  let row (label solved limits failed nodes time : String) : String :=
    String.intercalate " " [padRight 30 label, padLeft 7 solved, padLeft 7 limits, padLeft 7 failed,
      padLeft 12 nodes, time]
  let line (r : Report) : String :=
    let s := r.summary
    row r.label (toString s.solved) (toString s.limits) (toString s.failures)
      (Decimal.fixed 1 s.meanNodes) (padLeft 10 (Decimal.fixed 2 s.meanTime) ++ "ms")
  lines <|
    ["", rule '=' 80,
      row "Configuration" "Solved" "Limits" "Failed" "Nodes (gm)" (padLeft 12 "Time (gm)"),
      rule '-' 80] ++ reports.map line ++ [rule '=' 80]

/-- The lines about one pair of configurations. -/
def pairLines (a b : Report) (p : PairStats) : List String :=
  ["", a.label ++ " vs " ++ b.label,
    "  solved: " ++ a.label ++ s!" only {p.firstOnly}, both {p.both}, " ++ b.label ++
      s!" only {p.secondOnly}"] ++
  (if 0 < p.both then
    [s!"  on {p.both} common: nodes " ++ Decimal.fixed 1 p.nodes.1 ++ " vs " ++
      Decimal.fixed 1 p.nodes.2 ++ ", time " ++ Decimal.fixed 2 p.time.1 ++ "ms vs " ++
      Decimal.fixed 2 p.time.2 ++ "ms"]
  else []) ++
  (if p.smallerGap ≠ (0, 0) then
    [s!"  both at limit, smaller gap: {p.smallerGap.1} vs {p.smallerGap.2}"]
  else [])

/-- All pairs of a list, each in order. -/
def orderedPairs {α : Type} : List α → List (α × α)
  | [] => []
  | a :: rest => rest.map (fun b => (a, b)) ++ orderedPairs rest

/-- The comparisons of all pairs of configurations. -/
def comparePairs (reports : List Report) : List (Report × Report × PairStats) :=
  let names := instanceNames reports
  (orderedPairs reports).map fun (a, b) => (a, b, comparePair names a b)

def pairTable (reports : List Report) : String :=
  lines ((comparePairs reports).flatMap fun (a, b, p) => pairLines a b p)

/-- The short code of a result. -/
def resultCode (r : Result) : String :=
  if r.error.isSome then "Error"
  else
    match r.status with
    | .optimal => "Opt"
    | .gapLimit => "Gap"
    | .infeasible => "Inf"
    | .unbounded => "Unbd"
    | .nodeLimit => "Nodes"
    | .timeLimit => "Time"
    | .openNodeLimit => "Open"
    | .interrupted => "Intr"
    | .numericalTrouble => "NumErr"

/-- The cell of an instance in one report. -/
def cell (r : Option Result) : String :=
  match r with
  | none => "-"
  | some r =>
    let gap := match r.gap with
      | some g => Decimal.fixed 2 (g * 100) ++ "%"
      | none => "inf"
    resultCode r ++ s!" {r.nodes} " ++ gap

/-- Status, nodes and gap of every instance, up to a number of lines. -/
def detailTable (reports : List Report) (limit : Option Nat) : String :=
  let names := instanceNames reports
  let shown := limit.getD names.length
  let heading := padRight 18 "Instance" ++
    String.join (reports.map fun r => " " ++ padLeft 24 (String.ofList (r.label.toList.take 24)))
  let line (name : String) : String := padRight 18 name ++
    String.join (reports.map fun r => " " ++ padLeft 24 (cell (resultNamed? r.results name)))
  lines <| ["", heading] ++ (names.take shown).map line ++
    (if shown < names.length then [s!"... and {names.length - shown} more instances"] else [])

end BranchAndCut.Benchmark

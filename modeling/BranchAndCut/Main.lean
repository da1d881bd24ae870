import BranchAndCut.Benchmark.Command
import BranchAndCut.Relaxation.KeyedSimplex
import BranchAndCut.Solve.Run

/-! The benchmark program: generates instances, solves them and compares
reports. Only measuring time, files and printing happen here. -/

namespace BranchAndCut.Benchmark

abbrev Instance := Model Float (KeyedSimplex Float)

/-- Processes nodes until the search ends. The clock is looked at before each of them. -/
def searchFrom (sv : Solver Float (KeyedSimplex Float)) (start : Nat) :
    Nat → BranchAndCut.Search Float (KeyedSimplex Float) → IO (Except (Error Float) (Outcome Float))
  | 0, _ => return .error .outOfSteps
  | fuel + 1, s => do
    let elapsed := (← IO.monoMsNow) - start
    match Search.step { sv with signals := fun _ _ => { elapsed } } s with
    | .error e _ => return .error e
    | .ok (some status) s => return .ok (s.finish status)
    | .ok none s => searchFrom sv start fuel s

/-- Solves an instance: the run of the solver, with the clock for its signals. -/
def solveInstance (m : Instance) (settings : Settings Float) : IO (Except (Error Float) (Outcome Float)) := do
  let sv : Solver Float (KeyedSimplex Float) := { settings, oracle := KeyedSimplex.oracle }
  match settings.validate with
  | .error flaw => return .error (.invalid (.settings flaw))
  | .ok _ =>
    let start ← IO.monoMsNow
    match Search.setUp sv (Search.ofModel sv m { settings := settings.relaxation }) with
    | .error e _ => return .error e
    | .ok _ s =>
      if s.domains.hasEmptyDomain then return .ok (s.finish .infeasible)
      match Search.onTree (SearchTree.createRoot Scalar.negInf) s with
      | .error e _ => return .error e
      | .ok _ s => searchFrom sv start sv.steps s

/-- Solves an instance and measures the time. -/
def timed (name : String) (m : Instance) (settings : Settings Float) :
    IO (Result × Option (Array Float)) := do
  let start ← IO.monoNanosNow
  let result ← solveInstance m settings
  let stop ← IO.monoNanosNow
  let time := Float.ofNat (stop - start) / 1e6
  match result with
  | .ok out => return (Result.ofOutcome name m.numVars m.numConstraints out time, out.x)
  | .error e =>
    return (Result.ofError name m.numVars m.numConstraints (e.message Decimal.positional), none)

/-- Builds an instance, or fails. -/
def buildInstance (f : Family) (size : Nat) (seed : UInt64) : IO Instance :=
  match (f.build size seed : Except (Error Float) Instance) with
  | .ok m => pure m
  | .error e => throw <| IO.userError <|
      "Failed to build " ++ instanceName f size seed ++ ": " ++ e.message Decimal.positional

def printLines (l : List String) : IO Unit := IO.print (lines l)

def executeRun (f : Family) (size : Nat) (seed : UInt64) (search : Search) (logFreq : Nat) : IO Unit := do
  let name := instanceName f size seed
  let m ← buildInstance f size seed
  printLines (runHeading name search.choice.label m.numVars m.numConstraints)
  let (result, x) ← timed name m { search.settings with verbose := true, logFreq }
  printLines (runLines result x)

def executeSuite (families : List Family) (sizes : List Nat) (seeds : Nat) (search : Search)
    (output : Option String) : IO Unit := do
  let label := search.choice.label
  printLines (suiteHeading label)
  let mut results : List Result := []
  for f in families do
    for size in sizes do
      for i in List.range seeds do
        let seed := UInt64.ofNat i
        let m ← buildInstance f size seed
        let (result, _) ← timed (instanceName f size seed) m search.settings
        IO.println (suiteLine result)
        results := result :: results
  let report := Report.of label results.reverse
  printLines (suiteFooter report.summary)
  if let some path := output then
    IO.FS.writeFile path report.write
    IO.println ("Report written to " ++ path)

def loadReport (path : String) : IO Report := do
  match Report.read? (← IO.FS.readFile path) with
  | some r => return r
  | none => throw (IO.userError ("Failed to parse " ++ path))

def execute : Command → IO Unit
  | .run f size seed search logFreq => executeRun f size seed search logFreq
  | .suite families sizes seeds search output => executeSuite families sizes seeds search output
  | .compare paths detailed => do
    IO.print (comparison (← paths.mapM loadReport) detailed)

end BranchAndCut.Benchmark

def main (words : List String) : IO UInt32 := do
  match BranchAndCut.Benchmark.Command.ofWords words with
  | .error e =>
    IO.eprintln ("error: " ++ e.message)
    return 2
  | .ok command =>
    try
      BranchAndCut.Benchmark.execute command
      return 0
    catch e =>
      IO.eprintln ("Error: " ++ toString e)
      return 1

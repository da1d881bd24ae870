import BranchAndCut.Benchmark.Choice
import BranchAndCut.Benchmark.Comparison
import BranchAndCut.Benchmark.Family
import BranchAndCut.Benchmark.ReportFile

/-! What a benchmark command line asks for, and the text that answers it. An
option is given as `--name value`, `--name=value` or by a letter, as `-f value`. -/

namespace BranchAndCut.Benchmark

/-- How the instances are solved. -/
structure Search where
  choice : Choice
  nodeLimit : Nat
  /-- In seconds. -/
  timeLimit : Option Float

inductive Command where
  /-- Solves one instance with lines of progress. -/
  | run (family : Family) (size : Nat) (seed : UInt64) (search : Search) (logFreq : Nat)
  /-- Solves the instances of some families, and writes a report if there is a path for it. -/
  | suite (families : List Family) (sizes : List Nat) (seeds : Nat) (search : Search)
      (output : Option String)
  /-- Compares reports, with a number of instances in detail. -/
  | compare (reports : List String) (detailed : Option Nat)

/-- Why a command line was refused. -/
inductive UsageError where
  | noCommand
  | unknownCommand (name : String)
  | unknownOption (text : String)
  | missingValue (option : String)
  | badValue (option text : String)
  | unexpectedArgument (text : String)
  | tooFewReports
  | smallSize
  | smallSizes
deriving DecidableEq, Repr

def UsageError.message : UsageError → String
  | .noCommand => "a command is needed: run, suite or compare"
  | .unknownCommand name => "unrecognized subcommand '" ++ name ++ "'"
  | .unknownOption text => "unexpected argument '" ++ text ++ "' found"
  | .missingValue option => "a value is required for '" ++ option ++ "' but none was supplied"
  | .badValue option text => "invalid value '" ++ text ++ "' for '" ++ option ++ "'"
  | .unexpectedArgument text => "unexpected argument '" ++ text ++ "' found"
  | .tooFewReports => "at least two reports are required"
  | .smallSize => "size must be at least 2"
  | .smallSizes => "sizes must be at least 2"

/-! ## Options -/

/-- An option of a command. -/
structure OptionSpec where
  name : String
  letter : Option Char := none
  /-- Whether a value follows. -/
  valued : Bool := true

/-- The arguments of a command: options with their values, and what is no option. -/
structure Arguments where
  options : List (String × String) := []
  free : List String := []

/-- The option that a word names, with a value written into the word. -/
def optionOf? (specs : List OptionSpec) (word : String) : Option (OptionSpec × Option String) :=
  match word.toList with
  | '-' :: '-' :: rest =>
    let name := String.ofList (rest.takeWhile (· != '='))
    let value := match rest.dropWhile (· != '=') with
      | [] => none
      | _ :: value => some (String.ofList value)
    (specs.find? fun s => s.name == name).map (·, value)
  | '-' :: letter :: rest =>
    let value := match rest with
      | [] => none
      | '=' :: value => some (String.ofList value)
      | value => some (String.ofList value)
    (specs.find? fun s => s.letter == some letter).map (·, value)
  | _ => none

/-- Sorts the words of a command line. -/
def Arguments.scan (specs : List OptionSpec) (args : Arguments) : List String → Except UsageError Arguments
  | [] => pure { options := args.options.reverse, free := args.free.reverse }
  | word :: rest =>
    match optionOf? specs word with
    | some (spec, some value) =>
      if spec.valued then scan specs { args with options := (spec.name, value) :: args.options } rest
      else throw (.unexpectedArgument value)
    | some (spec, none) =>
      if spec.valued then
        match rest with
        | value :: rest => scan specs { args with options := (spec.name, value) :: args.options } rest
        | [] => throw (.missingValue word)
      else scan specs { args with options := (spec.name, "") :: args.options } rest
    | none =>
      if word.startsWith "-" && word != "-" then throw (.unknownOption word)
      else scan specs { args with free := word :: args.free } rest

namespace Arguments

def values (args : Arguments) (name : String) : List String :=
  (args.options.filter fun (n, _) => n == name).map Prod.snd

/-- The value of an option read as some type. -/
def value? {α : Type} (args : Arguments) (name : String) (read : String → Option α) :
    Except UsageError (Option α) :=
  match args.values name with
  | [] => pure none
  | text :: _ =>
    match read text with
    | some a => pure (some a)
    | none => throw (.badValue ("--" ++ name) text)

def value {α : Type} (args : Arguments) (name : String) (read : String → Option α) (absent : α) :
    Except UsageError α := do
  return (← args.value? name read).getD absent

end Arguments

/-- A natural number in decimal digits. -/
def digits? (text : String) : Option Nat :=
  let cs := text.toList
  if !cs.isEmpty && cs.all Char.isDigit then
    some (cs.foldl (fun n c => 10 * n + (c.toNat - '0'.toNat)) 0)
  else none

/-- A number as documents write it. -/
def decimal? (text : String) : Option Float := do
  match ← Json.read? text with
  | .num n => n.quickFloat?
  | _ => none

def seed? (text : String) : Option UInt64 := do
  let n ← digits? text
  if n < Nat.pow 2 64 then some (UInt64.ofNat n) else none

/-! ## Commands -/

def searchOptions : List OptionSpec := [
  { name := "node-selection" }, { name := "branching" }, { name := "no-cuts", valued := false },
  { name := "node-limit" }, { name := "time-limit", letter := some 't' }]

def Search.ofArguments (args : Arguments) : Except UsageError Search := do
  let selection ← args.value "node-selection" some "best-bound"
  let branching ← args.value "branching" some "hybrid"
  match Choice.ofNames selection branching (args.values "no-cuts").isEmpty with
  | .ok choice =>
    let nodeLimit ← args.value "node-limit" digits? 100000
    let timeLimit ← args.value? "time-limit" decimal?
    return { choice, nodeLimit, timeLimit }
  | .error u => throw (.badValue u.field u.text)

def Search.settings (s : Search) : Settings Float := s.choice.settings s.nodeLimit s.timeLimit

/-- Refuses words that are no option. -/
def noFree (args : Arguments) : Except UsageError Unit :=
  match args.free with
  | [] => pure ()
  | word :: _ => throw (.unexpectedArgument word)

def readRun (words : List String) : Except UsageError Command := do
  let args ← Arguments.scan ([{ name := "family", letter := some 'f' }, { name := "size", letter := some 's' },
    { name := "seed" }, { name := "log-freq" }] ++ searchOptions) {} words
  noFree args
  let size ← args.value "size" digits? 30
  if size < 2 then throw .smallSize
  return .run (← args.value "family" Family.ofName? .knapsack) size (← args.value "seed" seed? 12345)
    (← Search.ofArguments args) (Nat.max (← args.value "log-freq" digits? 100) 1)

def readSuite (words : List String) : Except UsageError Command := do
  let args ← Arguments.scan ([{ name := "family", letter := some 'f' }, { name := "sizes", letter := some 's' },
    { name := "seeds" }, { name := "output", letter := some 'o' }] ++ searchOptions) {} words
  noFree args
  let families ← (args.values "family").mapM fun text =>
    match Family.ofName? text with
    | some f => pure f
    | none => throw (.badValue "--family" text)
  let sizes ← ((args.values "sizes").flatMap fun text => text.splitOn ",").mapM fun text =>
    match digits? text with
    | some n => pure n
    | none => throw (UsageError.badValue "--sizes" text)
  if sizes.any fun n => n < 2 then throw .smallSizes
  return .suite (if families.isEmpty then Family.all else families) (if sizes.isEmpty then [20, 40] else sizes)
    (← args.value "seeds" digits? 3) (← Search.ofArguments args) (args.values "output").head?

def readCompare (words : List String) : Except UsageError Command := do
  let args ← Arguments.scan [{ name := "detailed" }] {} words
  if args.free.length < 2 then throw .tooFewReports
  return .compare args.free (← args.value? "detailed" digits?)

/-- The command of a command line. -/
def Command.ofWords : List String → Except UsageError Command
  | [] => throw .noCommand
  | "run" :: rest => readRun rest
  | "suite" :: rest => readSuite rest
  | "compare" :: rest => readCompare rest
  | name :: _ => throw (.unknownCommand name)

/-! ## Answers -/

/-- What stands above the result of one instance. -/
def runHeading (name label : String) (numVars numConstraints : Nat) : List String :=
  ["", rule '=' 60, name ++ " (" ++ label ++ ")", rule '=' 60,
    s!"Variables (n):    {numVars}", s!"Constraints (m):  {numConstraints}", ""]

/-- The result of one instance, with the solution if there is one. -/
def runLines (r : Result) (x : Option (Array Float)) : List String :=
  let bound (v : Option Float) : String := (v.map (Decimal.fixedScientific 6)).getD "-"
  let gap := (r.gap.map fun g => Decimal.fixed 4 (g * 100) ++ "%").getD "-"
  let nonzeros (x : Array Float) : Nat := x.toList.countP fun v => v.abs > 1e-9
  ["Status:           " ++ r.status.text,
    "Primal bound:     " ++ bound r.primalBound,
    "Dual bound:       " ++ bound r.dualBound,
    "Gap:              " ++ gap,
    s!"Nodes:            {r.nodes}",
    s!"LP iterations:    {r.lpIterations}",
    s!"Cuts:             {r.cuts}",
    "Solve time:       " ++ Decimal.fixed 3 r.time ++ " ms"] ++
  (r.error.map ("ERROR: " ++ ·)).toList ++
  (x.map fun x => "Nonzeros:         " ++ toString (nonzeros x)).toList

def suiteHeading (label : String) : List String :=
  ["CIP Solver Benchmark Suite (" ++ label ++ ")", rule '=' 60]

/-- The line of one instance of a suite. -/
def suiteLine (r : Result) : String :=
  padRight 18 r.name ++ " " ++ padLeft 18 r.status.text ++ " " ++ padLeft 8 (toString r.nodes) ++ " nodes " ++
    padLeft 10 (Decimal.fixed 1 r.time) ++ " ms"

/-- What stands below a suite. -/
def suiteFooter (s : Summary) : List String :=
  [rule '=' 60,
    s!"Solved {s.solved}/{s.total} (limits {s.limits}, failures {s.failures}), total " ++
      Decimal.fixed 2 s.totalTime ++ "s, geom mean " ++ Decimal.fixed 2 s.meanTime ++ "ms"]

/-- The comparison of reports. -/
def comparison (reports : List Report) (detailed : Option Nat) : String :=
  summaryTable reports ++ pairTable reports ++
    (if detailed.isSome then detailTable reports detailed else "")

end BranchAndCut.Benchmark

import BranchAndCut.Benchmark.Result
import BranchAndCut.Decimal.Shortest
import BranchAndCut.Json.Encode
import BranchAndCut.Json.Reader

/-! Reports as JSON documents. Reading ignores unknown fields and refuses
repeated ones; optional fields may be missing. A record may also be given as the
list of its fields. Statistics are read as they stand, not computed again. -/

namespace BranchAndCut.Benchmark

open Json

instance : Named Status where
  names := [
    ("Optimal", .optimal),
    ("Infeasible", .infeasible),
    ("Unbounded", .unbounded),
    ("NodeLimit", .nodeLimit),
    ("TimeLimit", .timeLimit),
    ("GapLimit", .gapLimit),
    ("OpenNodeLimit", .openNodeLimit),
    ("Interrupted", .interrupted),
    ("NumericalTrouble", .numericalTrouble)]

/-! ## Reading -/

/-- The values of the fields of a record, in the order of the names. -/
def fields? (names : List String) : Value → Option (List (Option Value))
  | .arr items => if items.length = names.length then some (items.map some) else none
  | .obj members =>
    if members.all fun (k, _) => k.isSome then
      names.mapM fun name =>
        match Value.membersNamed members name with
        | [] => some none
        | [v] => some (some v)
        | _ => none
    else none
  | _ => none

/-- A field that has to be there. -/
def required {α : Type} (read : Value → Option α) (field : Option (Option Value)) : Option α := do
  read (← ← field)

/-- A field that may be missing or null. -/
def optional {α : Type} (read : Value → Option α) : Option (Option Value) → Option (Option α)
  | some (some .null) => some none
  | some (some v) => (read v).map some
  | some none => some none
  | none => none

def float? : Value → Option Float
  | .num n => n.quickFloat?
  | _ => none

/-- A natural number of 64 bits. -/
def count? : Value → Option Nat
  | .num n => n.toNat? (Nat.pow 2 64)
  | _ => none

def text? : Value → Option String
  | .str s => s
  | _ => none

/-- A status by its name, which may also be the one key of an object without a value. -/
def status? : Value → Option Status
  | .str (some name) => ofName? name
  | .obj [(some name, .null)] => ofName? name
  | _ => none

def resultFields : List String := ["name", "n", "m", "status", "primal_bound", "dual_bound", "gap",
  "nodes", "lp_iterations", "cuts", "solve_time_ms", "error"]

def result? (v : Value) : Option Result := do
  let fs ← fields? resultFields v
  return {
    name := ← required text? fs[0]?
    numVars := ← required count? fs[1]?
    numConstraints := ← required count? fs[2]?
    status := ← required status? fs[3]?
    primalBound := ← optional float? fs[4]?
    dualBound := ← optional float? fs[5]?
    gap := ← optional float? fs[6]?
    nodes := ← required count? fs[7]?
    lpIterations := ← required count? fs[8]?
    cuts := ← required count? fs[9]?
    time := ← required float? fs[10]?
    error := ← optional text? fs[11]? }

def summaryFields : List String := ["total", "solved", "limits", "failures", "total_time_s",
  "geom_mean_time_ms", "geom_mean_nodes"]

def summary? (v : Value) : Option Summary := do
  let fs ← fields? summaryFields v
  return {
    total := ← required count? fs[0]?
    solved := ← required count? fs[1]?
    limits := ← required count? fs[2]?
    failures := ← required count? fs[3]?
    totalTime := ← required float? fs[4]?
    meanTime := ← required float? fs[5]?
    meanNodes := ← required float? fs[6]? }

def results? : Value → Option (List Result)
  | .arr items => items.mapM result?
  | _ => none

def reportFields : List String := ["solver_name", "results", "summary"]

def report? (v : Value) : Option Report := do
  let fs ← fields? reportFields v
  return {
    label := ← required text? fs[0]?
    results := ← required results? fs[1]?
    summary := ← required summary? fs[2]? }

/-- The report that a text holds. -/
def Report.read? (text : String) : Option Report := do report? (← Json.read? text)

/-! ## Writing -/

instance : Encode Float Result where
  encode text r := .record <| resultFields.zip [
    encode text r.name,
    encode text r.numVars,
    encode text r.numConstraints,
    encode text r.status,
    encode text r.primalBound,
    encode text r.dualBound,
    encode text r.gap,
    encode text r.nodes,
    encode text r.lpIterations,
    encode text r.cuts,
    encode text r.time,
    encode text r.error]

instance : Encode Float Summary where
  encode text s := .record <| summaryFields.zip [
    encode text s.total,
    encode text s.solved,
    encode text s.limits,
    encode text s.failures,
    encode text s.totalTime,
    encode text s.meanTime,
    encode text s.meanNodes]

instance : Encode Float Report where
  encode text r := .record <| reportFields.zip [
    encode text r.label,
    encode text r.results,
    encode text r.summary]

/-- A number with a point; values that no document can hold are null. -/
def pointedOrNull (x : Float) : String := (Decimal.pointed? x).getD "null"

/-- The text of a report. -/
def Report.write (r : Report) : String := (encode pointedOrNull r).pretty 0

end BranchAndCut.Benchmark

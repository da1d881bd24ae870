import BranchAndCut.Constraint.Scripted
import BranchAndCut.Document.Domain
import BranchAndCut.Document.Settings
import BranchAndCut.Solve.Session

/-! Plugins given as data, and the events of a session, in documents. -/

namespace BranchAndCut

open Json

variable {K σ : Type}

section Reading

variable [Scalar K] [Decode K]

instance : Decode (ScriptedCut K) where
  decode? v := do return { cut := ← Decode.decode? v, always := v.get "always" false }

instance : Named ScriptedReport where
  names := [("cutoff", .cutoff), ("error", .fault)]

/-- A bound to tighten. -/
def tightening? (v : Value) : Option (VarId × BoundKind × K) := do
  return (← v.get? "var", ← v.get? "kind", ← v.get? "value")

instance : Decode (ScriptedConstraint K) where
  decode? v := some {
    locks := v.get "locks" []
    rows := v.get "rows" []
    cut := v.get? "cut"
    tighten := (v.get "tighten" ([] : List Value)).filterMap tightening?
    trigger := do
      let w : Value ← v.get? "when"
      return (← w.get? "var", ← w.get? "value")
    sloppy := v.get "sloppy" false
    report := v.get? "report"
    row := v.get? "row"
    forbidden := do
      let f : Value ← v.get? "forbid"
      let vars : List VarId ← f.get? "vars"
      return vars.zip (← f.get? "point")
    branch := v.get "branch" []
    score := v.get "score" 1
    modifiable := v.get "modifiable" false }

instance : Decode (ScriptedFamily K) where
  decode? v := some {
    name := v.get "name" "scripted"
    priority := v.get "priority" 0
    conss := v.get "conss" #[] }

/-- A family given as data. -/
instance : Decode (CustomHandler K σ) where
  decode? v :=
    match v.get "type" "" with
    | "not_equal" => some (NotEqualFamily.handler { pairs := v.get "pairs" #[] })
    | _ => (Decode.decode? v : Option (ScriptedFamily K)).map ScriptedFamily.handler

instance : Decode (FixedPoint K) where
  decode? v := some {
    name := v.get "name" "fixed", x := v.get? "x", observe := v.get "observe" false }

instance : Decode (FixedCuts K) where
  decode? v := some { name := v.get "name" "fixed_cuts", cuts := v.get "cuts" [] }

instance : Decode (PricedColumn K) where
  decode? v := do
    return {
      name := v.get "name" ""
      type := ← v.get? "type"
      lower := v.get "lb" 0
      upper := v.get "ub" 0
      obj := v.get "obj" 0
      coefs := v.get "coefs" [] }

instance : Decode (ColumnList K) where
  decode? v := some {
    name := v.get "name" "columns"
    columns := v.get "columns" []
    blind := v.get "blind" false
    batch := v.get? "batch"
    bounds := v.get "bounds" [] }

instance : Decode (FixedScores K) where
  decode? v := some {
    name := v.get "name" "scores", scores := v.get "scores" #[], short := v.get "short" false }

instance : Decode (Setup K) where
  decode? v := some {
    settings := v.get "settings" Settings.default
    outages := v.get "fail" []
    heuristics := v.get "heuristics" []
    separators := v.get "separators" []
    pricers := v.get "pricers" []
    scoring := v.get? "branching"
    interrupted := v.get "interrupt" false
    capacity := v.get "trace" 0 }

end Reading

/-- An event, with the rows that it adds if these are wanted. -/
def Event.layout (text : K → String) (withRows : Bool) : Event K → Layout
  | .rowAdded key row => .record ([("at", encode text "row"), ("key", encode text key)] ++
      if withRows then [("row", encode text row)] else [])
  | .rowRemoved key => .record [("at", encode text "remove"), ("key", encode text key)]
  | .solved r numRows => .record [
      ("at", encode text "lp"),
      ("status", encode text r.status),
      ("obj", encode text r.objective),
      ("iters", encode text r.iterations),
      ("warm", encode text r.warmStarted),
      ("rows", encode text numRows)]
  | .observed x lower upper => .record [
      ("at", encode text "branch"), ("x", encode text x), ("lb", encode text lower), ("ub", encode text upper)]
  | .priced objective depth offered => .record [
      ("at", encode text "price"),
      ("obj", encode text objective),
      ("depth", encode text depth),
      ("offered", encode text offered)]

end BranchAndCut

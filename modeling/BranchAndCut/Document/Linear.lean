import BranchAndCut.Document.Names

/-! Linear programs, rows, cuts and relaxations in documents. -/

namespace BranchAndCut

open Json

variable {K : Type}

section Reading

variable [Scalar K] [Decode K]

/-- A matrix: its rows as lists of column and value, or its shape with triplets,
stored along rows on demand. -/
instance : Decode (Matrix K) where
  decode? v :=
    match (v.get? "rows" : Option (List (List (Nat × K)))) with
    | some rows => some (Matrix.ofRows (v.get "ncols" 0) rows)
    | none =>
      let a : Matrix K := Matrix.ofTriplets (v.get "nrows" 0) (v.get "ncols" 0) (v.get "triplets" [])
      some (if v.get "csr" false then a.toRows else a)

instance : Decode (Lp.Settings K) where
  decode? v :=
    let d := Lp.Settings.default (K := K)
    some {
      maxIter := v.get "max_iter" d.maxIter
      timeLimit := v.get? "time_limit_ms"
      tolPrimal := v.get "tol_primal" d.tolPrimal
      tolDual := v.get "tol_dual" d.tolDual
      tolPivot := v.get "tol_pivot" d.tolPivot
      refactorFreq := v.get "refactor_freq" d.refactorFreq
      blandAfter := v.get "bland_after" d.blandAfter }

instance : Decode (Lp.Problem K) where
  decode? v := do
    return {
      cost := v.get "c" #[]
      a := ← v.get? "a"
      rowLower := v.get "row_lower" #[]
      rowUpper := v.get "row_upper" #[]
      colLower := v.get "col_lower" #[]
      colUpper := v.get "col_upper" #[] }

/-- A row; a missing side is infinite. -/
instance : Decode (Row K) where
  decode? v := some (Row.of (v.get "coefs" []) (v.get "lhs" Scalar.negInf) (v.get "rhs" Scalar.inf))

instance : Decode (Cut K) where
  decode? v := do
    return {
      name := v.get "name" "cut"
      row := ← Decode.decode? v
      isLocal := v.get "local" false
      source := v.get "source" "user" }

instance : Decode (NewColumn K) where
  decode? v := some { var := v.get "var" 0, cost := v.get "obj" 0, entries := v.get "entries" [] }

end Reading

instance : Encode K (Lp.Solution K) where
  encode text s := .record [
    ("status", encode text s.status.text),
    ("x", encode text s.x),
    ("obj", encode text s.objective),
    ("activity", encode text s.rowActivity),
    ("duals", encode text s.rowDuals),
    ("reduced", encode text s.reducedCosts),
    ("cols", encode text s.basis.cols),
    ("rows", encode text s.basis.rows),
    ("num_basic", encode text s.basis.numBasic),
    ("iters", encode text s.effort.iters),
    ("phase1", encode text s.effort.phase1Iters),
    ("refactors", encode text s.effort.refactors),
    ("warm", encode text s.effort.warmStarted)]

instance : Encode K (Row K) where
  encode text r := .record [
    ("coefs", encode text r.coefs), ("lhs", encode text r.lhs), ("rhs", encode text r.rhs)]

/-- The fields of a cut. -/
def Cut.fields (text : K → String) (c : Cut K) : List (String × Layout) := [
  ("name", encode text c.name),
  ("source", encode text c.source),
  ("local", encode text c.isLocal),
  ("row", encode text c.row)]

instance : Encode K (Cut K) where
  encode text c := .record (c.fields text)

instance : Encode K (PooledCut K) where
  encode text c := .record (c.cut.fields text ++ [
    ("id", encode text c.id),
    ("status", encode text c.status),
    ("times_binding", encode text c.timesBinding),
    ("slack_count", encode text c.slackCount),
    ("added_round", encode text c.addedRound),
    ("last_binding_round", encode text c.lastBindingRound)])

instance : Encode K (Relaxation K) where
  encode text r := .record [
    ("status", encode text r.status),
    ("obj", encode text r.objective),
    ("x", encode text r.x),
    ("duals", .record (r.duals.map fun (k, y) => (k.text, encode text y))),
    ("reduced", encode text r.reducedCosts),
    ("iters", encode text r.iterations),
    ("warm", encode text r.warmStarted)]

instance : Encode K SavedBasis where
  encode text b := .record [
    ("cols", encode text b.cols),
    ("rows", .record (b.rows.map fun (k, s) => (k.text, encode text s)))]

instance : Encode K LpColumn where
  encode text
    | .var v => encode text s!"x{v}"
    | .slack key => encode text key

instance : Encode K (TableauRow K) where
  encode text r := .record [
    ("basic", encode text r.basic),
    ("value", encode text r.value),
    ("entries", .list (r.entries.map fun e => .list [
      encode text e.col, encode text e.coef, encode text e.status, encode text e.value]))]

end BranchAndCut

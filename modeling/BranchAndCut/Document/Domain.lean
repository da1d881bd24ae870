import BranchAndCut.Document.Names

/-! Domains, bound changes and implications in documents. -/

namespace BranchAndCut

open Json

variable {K : Type}

section Reading

variable [Scalar K] [Decode K]

/-- A branching change, as variable, kind, old and new bound. -/
instance : Decode (BoundChange K) where
  decode?
    | .arr [var, kind, old, new] => do
      return {
        var := ← Decode.decode? var
        kind := ← Decode.decode? kind
        old := ← Decode.decode? old
        new := ← Decode.decode? new
        reason := .branching }
    | _ => none

/-- Domains at the root; all variables are integral unless said otherwise. -/
instance : Decode (Domains K) where
  decode? v :=
    let lower : Array K := v.get "lb" #[]
    some (Domains.new lower (v.get "ub" #[]) (v.get "integral" (Array.replicate lower.size true)) (v.get "tol" 1e-6))

/-- An implied bound. The fixing that triggers it is read apart. -/
instance : Decode (Implication K) where
  decode? v := some { var := v.get "implied" 0, kind := v.get "kind" .lower, value := v.get "bound" 0 }

/-- The graph with the cliques, then the implications of a document. Each
addition is reported; one that fails is left out. -/
def ImplicationGraph.ofDocument (v : Value) :
    ImplicationGraph K × List (Except (Error K) (Option Nat)) :=
  let (g, done) := (v.get "cliques" ([] : List (List VarId))).foldl (fun ((g : ImplicationGraph K), done) c =>
    match g.addClique c with
    | .ok (i, g) => (g, done ++ [.ok (some i)])
    | .error e => (g, done ++ [.error e])) ({}, [])
  (v.get "implications" ([] : List Value)).foldl (fun ((g : ImplicationGraph K), done) i =>
    match (Decode.decode? i).map (g.addImplication (i.get "var" 0) (i.get "value" false)) with
    | some (.ok g) => (g, done ++ [.ok none])
    | some (.error e) => (g, done ++ [.error e])
    | none => (g, done)) (g, done)

end Reading

instance : Decode Lock where
  decode? v := do
    let (var, down, up) ← (Decode.decode? v : Option (VarId × Bool × Bool))
    return { var, down, up }

instance : Encode K Lock where
  encode text l := encode text (l.var, l.down, l.up)

instance : Encode K (BoundChange K) where
  encode text c := .list [
    encode text c.var, encode text c.kind, encode text c.old, encode text c.new, encode text c.reason]

/-- The local bounds. -/
instance : Encode K (Domains K) where
  encode text d := .record [("lb", encode text d.lower), ("ub", encode text d.upper)]

instance : Encode K (Implication K) where
  encode text i := .list [encode text i.var, encode text i.kind, encode text i.value]

instance [Scalar K] [Decode K] : Decode (ConsBranching K) where
  decode? v := some { score := v.get "score" 0, children := v.get "children" [] }

instance : Encode K (ConsBranching K) where
  encode text b := .record [("score", encode text b.score), ("children", encode text b.children)]

instance : Encode K (LinearConstraint K) where
  encode text c := .record [
    ("coefs", encode text c.row.coefs), ("lhs", encode text c.row.lhs), ("rhs", encode text c.row.rhs),
    ("name", encode text c.name)]

instance : Encode K Sos1Constraint where
  encode text c := .record [("vars", encode text c.vars), ("name", encode text c.name)]

instance : Encode K ActivationDelta where
  encode text d := .record [
    ("activated", encode text d.activated), ("deactivated", encode text d.deactivated)]

end BranchAndCut

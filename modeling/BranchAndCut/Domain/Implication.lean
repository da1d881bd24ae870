import BranchAndCut.Domain.Bound
import BranchAndCut.Error

/-! Bounds implied by fixing a binary variable. A clique is a set of binary
variables of which at most one is 1: fixing one member to 1 fixes the others to 0. -/

namespace BranchAndCut

/-- An implied bound. -/
structure Implication (K : Type) where
  var : VarId
  kind : BoundKind
  value : K

structure ImplicationGraph (K : Type) where
  /-- Single implications with the fixing that triggers them, in order of declaration. -/
  implications : Array ((VarId × Bool) × Implication K) := #[]
  /-- The members of each clique, in increasing order. -/
  cliques : Array (List VarId) := #[]

namespace ImplicationGraph

variable {K : Type}

def isEmpty (g : ImplicationGraph K) : Bool := g.implications.isEmpty && g.cliques.isEmpty

/-- Records that fixing `v` to `value` implies a bound on another variable. -/
def addImplication (g : ImplicationGraph K) (v : VarId) (value : Bool) (implied : Implication K) :
    Except (Error K) (ImplicationGraph K) :=
  if implied.var = v then throw (.invalid (.selfImplication v))
  else pure { g with implications := g.implications.push ((v, value), implied) }

/-- Records a clique; the answer is its index. -/
def addClique (g : ImplicationGraph K) (vars : List VarId) :
    Except (Error K) (Nat × ImplicationGraph K) :=
  let members := vars.mergeSort fun a b => decide (a ≤ b)
  if members.eraseReps.length ≠ vars.length then throw (.invalid .repeatedInClique)
  else pure (g.cliques.size, { g with cliques := g.cliques.push members })

variable [Scalar K]

/-- The direct consequences of fixing `v` to `value`: declared implications, then
those of the cliques that `v` is in. -/
def implied (g : ImplicationGraph K) (v : VarId) (value : Bool) : List (Implication K) :=
  let direct := g.implications.toList.filterMap fun (trigger, i) =>
    if trigger = (v, value) then some i else none
  if value then
    direct ++ (g.cliques.toList.filter (·.contains v)).flatMap fun members =>
      (members.filter (· != v)).map fun w => { var := w, kind := .upper, value := 0 }
  else direct

end ImplicationGraph

end BranchAndCut

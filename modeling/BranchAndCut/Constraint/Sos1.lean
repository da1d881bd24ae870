import BranchAndCut.Constraint.Lock
import BranchAndCut.Domain.Deduction

/-! Special ordered sets of type 1: of the members, which are nonnegative, at
most one is nonzero. Branching splits a set in two and forces one part to zero
in each child. -/

namespace BranchAndCut

structure Sos1Constraint where
  name : String
  /-- The members in set order. -/
  vars : List VarId
deriving Repr

/-- The family of special ordered sets. -/
structure Sos1Family where
  conss : Array Sos1Constraint := #[]
deriving Repr

/-- A branching on the structure of a constraint. The children cover every
feasible point of the current domain; the highest score is preferred. -/
structure ConsBranching (K : Type) where
  score : K
  children : List (List (BoundChange K))

namespace Sos1Family

variable {K : Type} [Scalar K]

/-- Adds a set of distinct members; the answer is its index. -/
def addSet (f : Sos1Family) (name : String) (vars : List VarId) :
    Except (Error K) (Nat × Sos1Family) :=
  if (vars.mergeSort fun a b => decide (a ≤ b)).eraseReps.length ≠ vars.length then
    throw (.invalid (.repeatedMember name))
  else pure (f.conss.size, { f with conss := f.conss.push { name, vars } })

/-- The members of a set. -/
def members (f : Sos1Family) (c : Nat) : List VarId :=
  match f.conss[c]? with
  | some cons => cons.vars
  | none => []

/-- Forces all members but one to zero. -/
def zeroOthers (g : ImplicationGraph K) (reason : Reason) (keep : VarId) (d : Deduction K) :
    List VarId → Bool × Deduction K
  | [] => (true, d)
  | v :: rest =>
    if v = keep then zeroOthers g reason keep d rest
    else
      match Deduction.tighten g reason d v .upper 0 with
      | (.infeasible, d) => (false, d)
      | (_, d) => zeroOthers g reason keep d rest

/-- A member that cannot be zero forces the others to zero; two of them refute the domain. -/
def propagateSet (g : ImplicationGraph K) (reason : Reason) (d : Deduction K) (vars : List VarId) :
    Bool × Deduction K :=
  match vars.filter fun v => decide ((0 : K) < d.lb v) with
  | [] => (true, d)
  | [keep] => zeroOthers g reason keep d vars
  | _ => (false, d)

def propagateAll (f : Sos1Family) (g : ImplicationGraph K) (reason : Reason) (d : Deduction K) :
    List Nat → Bool × Deduction K
  | [] => (true, d)
  | c :: rest =>
    match propagateSet g reason d (f.members c) with
    | (true, d) => propagateAll f g reason d rest
    | (false, d) => (false, d)

/-- Propagates the given sets. -/
def propagate (f : Sos1Family) (g : ImplicationGraph K) (reason : Reason) (d : Deduction K)
    (conss : List Nat) : Verdict × Deduction K :=
  match f.propagateAll g reason d conss with
  | (true, after) => (d.verdict after, after)
  | (false, after) => (.cutoff, after)

/-- The sets with more than one nonzero member. -/
def check (f : Sos1Family) (conss : List Nat) (x : Array K) (tol : K) : List Nat :=
  conss.filter fun c =>
    decide (1 < (f.members c).countP fun v => decide (tol < Scalar.abs (x.getD v 0)))

/-- Only moving up can make a member nonzero. -/
def locks (f : Sos1Family) (c : Nat) : List Lock :=
  (f.members c).map fun v => { var := v, down := false, up := true }

/-- The changes that force the members of a part to zero. -/
def zeroAll (d : Domains K) (part : List VarId) : List (BoundChange K) :=
  (part.filter fun v => decide ((0 : K) < d.ub v)).map fun v => BoundChange.upper v (d.ub v) 0

/-- Splits a set so that each part keeps one of its nonzero members, if it has two. -/
def split? (d : Domains K) (x : Array K) (vars : List VarId) : Option (ConsBranching K) :=
  let nonzero := vars.zipIdx.filter fun (v, _) => decide ((1e-9 : K) < Scalar.abs (x.getD v 0))
  if nonzero.length < 2 then none
  else
    let middle := (nonzero[nonzero.length / 2]?.map Prod.snd).getD 0
    some {
      score := Scalar.sum (nonzero.map fun (v, _) => Scalar.abs (x.getD v 0))
      children := [zeroAll d (vars.take middle), zeroAll d (vars.drop middle)] }

/-- The splits of the given sets. -/
def branchings (f : Sos1Family) (conss : List Nat) (x : Array K) (d : Domains K) :
    List (ConsBranching K) :=
  conss.filterMap fun c => split? d x (f.members c)

end Sos1Family

end BranchAndCut

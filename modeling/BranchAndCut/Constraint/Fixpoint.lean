import BranchAndCut.Constraint.Handlers
import BranchAndCut.Constraint.Registry

/-! Propagation of all families to a fixpoint. Families run by decreasing
priority; after the first pass a family runs again only if a variable that it
watches has changed. -/

namespace BranchAndCut

/-- What a call of propagation did. -/
structure Propagated where
  /-- The local domain is empty. -/
  cutoff : Bool := false
  reductions : Nat := 0
  passes : Nat := 0
deriving DecidableEq, Repr

structure Propagator where
  /-- The families in the order of a pass. -/
  order : List HandlerId
  /-- The families that watch each variable. -/
  watchers : Array (List HandlerId)
  /-- Most passes of a call; zero for as many as it takes. -/
  maxPasses : Nat
deriving Repr

/-- The domains and the world that propagation acts on. -/
abbrev PropagateM (K σ : Type) := EStateM (Error K) (Domains K × σ)

namespace Propagator

variable {K σ : Type} [Scalar K]

def new (hs : Handlers K σ) (numVars maxPasses : Nat) : Propagator where
  order := (List.range hs.count).mergeSort fun a b => decide (hs.priority b ≤ hs.priority a)
  watchers := Array.replicate numVars []
  maxPasses := maxPasses

/-- Lets a family watch a variable. -/
def watchVar (h : HandlerId) (watchers : Array (List HandlerId)) (v : VarId) :
    Array (List HandlerId) :=
  let watchers := watchers ++ Array.replicate (v + 1 - watchers.size) []
  watchers.modify v fun hs => if hs.contains h then hs else hs ++ [h]

/-- Lets a family watch the locked variables of a constraint. -/
def watch (p : Propagator) (h : HandlerId) (locks : List Lock) : Propagator :=
  { p with watchers := (locks.map Lock.var).foldl (watchVar h) p.watchers }

/-- Closes the domains under the implications of the variables changed at the
active node, up to the first that is infeasible. -/
def closeAll (g : ImplicationGraph K) (d : Deduction K) : List VarId → Bool × Deduction K
  | [] => (true, d)
  | v :: rest =>
    match d.closeImplications g v with
    | (true, d) => closeAll g d rest
    | (false, d) => (false, d)

/-- Marks the families that watch a changed variable. -/
def markDirty (p : Propagator) (dirty : Array Bool) (changed : List (VarId × BoundKind)) : Array Bool :=
  changed.foldl (fun dirty (v, _) =>
    (p.watchers.getD v []).foldl (fun dirty h => dirty.setIfInBounds h true) dirty) dirty

/-- Runs one family; answers whether the domain is cut off, and the reductions. -/
def runFamily (hs : Handlers K σ) (g : ImplicationGraph K) (h : HandlerId) (conss : List Nat) :
    PropagateM K σ (Bool × Nat) := fun (domains, w) =>
  match hs.propagate h conss g (.propagation h) ({ domains }, w) with
  | .ok verdict (d, w) =>
    if d.exhausted then .error .outOfSteps (d.domains, w)
    else .ok (verdict == .cutoff || d.infeasible, d.reductions) (d.domains, w)
  | .error e (d, w) => .error e (d.domains, w)

/-- Forgets pending changes. -/
def clearPending : PropagateM K σ Unit := modify fun (d, w) => (d.clearPending, w)

/-- Runs the dirty families of one pass in order, up to the first cutoff. -/
def pass (p : Propagator) (hs : Handlers K σ) (r : Registry) (g : ImplicationGraph K)
    (dirty : Array Bool) (out : Propagated) :
    List HandlerId → PropagateM K σ (Array Bool × Propagated)
  | [] => pure (dirty, out)
  | h :: rest => do
    if !dirty.getD h false then p.pass hs r g dirty out rest
    else
      let dirty := dirty.setIfInBounds h false
      let conss := r.activeIndices h
      if conss.isEmpty then p.pass hs r g dirty out rest
      else
        let (cutoff, reductions) ← runFamily hs g h conss
        let out := { out with reductions := out.reductions + reductions, cutoff }
        if cutoff then
          clearPending
          pure (dirty, out)
        else
          let changed ← modifyGet fun (d, w) =>
            let (changed, d) := d.drainPending
            (changed, d, w)
          p.pass hs r g (p.markDirty dirty changed) out rest

/-- Runs passes until no family is dirty, the pass limit is reached or the
domain is cut off. -/
def passes (p : Propagator) (hs : Handlers K σ) (r : Registry) (g : ImplicationGraph K)
    (dirty : Array Bool) (out : Propagated) : Nat → PropagateM K σ Propagated
  | 0 => throw .outOfSteps
  | fuel + 1 => do
    if 0 < p.maxPasses ∧ p.maxPasses ≤ out.passes then pure out
    else
      let (dirty, out) ← p.pass hs r g dirty { out with passes := out.passes + 1 } p.order
      if out.cutoff || !dirty.any id then pure out
      else p.passes hs r g dirty out fuel

/-- Propagates the domain of the active node to a fixpoint, within a number of
passes. The changes of the node itself are closed under implications first. -/
def run (p : Propagator) (hs : Handlers K σ) (r : Registry) (g : ImplicationGraph K) (fuel : Nat) :
    PropagateM K σ Propagated := do
  let (feasible, d) ← modifyGet fun (domains, w) =>
    let (feasible, d) := closeAll g { domains } (domains.focusDelta.map BoundChange.var)
    ((feasible, d), d.domains, w)
  if d.exhausted then throw .outOfSteps
  clearPending
  if feasible then
    p.passes hs r g (Array.replicate hs.count true) { reductions := d.reductions } fuel
  else pure { cutoff := true, reductions := d.reductions }

end Propagator

end BranchAndCut

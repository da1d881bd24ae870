import BranchAndCut.Domain.Bound

/-! The domains of all variables along the active path of the tree. Every node
on the path has a frame that holds the changes made there; leaving a node undoes
its frame. Bounds tightened at the root or before any node is entered are
global, and local bounds fall back to them when the path is left. -/

namespace BranchAndCut

/-- A node on the active path and the changes made there, the newest first. -/
structure Frame (K : Type) where
  node : NodeId
  changes : List (BoundChange K) := []

structure Domains (K : Type) where
  globalLower : Array K
  globalUpper : Array K
  lower : Array K
  upper : Array K
  /-- Variables whose bounds are rounded inwards. -/
  integral : Array Bool
  /-- The active path, the deepest node first. -/
  frames : List (Frame K) := []
  /-- Changes not yet seen by propagation, the newest first. -/
  pending : List (VarId × BoundKind) := []
  /-- The number of variables created with an empty domain. -/
  emptyDomains : Nat
  tol : K

namespace Domains

variable {K : Type} [Scalar K]

def new (lower upper : Array K) (integral : Array Bool) (tol : K) : Domains K where
  globalLower := lower
  globalUpper := upper
  lower := lower
  upper := upper
  integral := integral
  emptyDomains := (lower.toList.zip upper.toList).countP fun (l, u) => u + tol < l
  tol := tol

def numVars (d : Domains K) : Nat := d.lower.size

/-- Appends a variable whose local bounds are its global ones. -/
def addVariable (d : Domains K) (lower upper : K) (integral : Bool) : VarId × Domains K :=
  (d.numVars,
    { d with
      globalLower := d.globalLower.push lower
      globalUpper := d.globalUpper.push upper
      lower := d.lower.push lower
      upper := d.upper.push upper
      integral := d.integral.push integral
      emptyDomains := if upper + d.tol < lower then d.emptyDomains + 1 else d.emptyDomains })

@[inline] def lb (d : Domains K) (v : VarId) : K := d.lower.getD v 0

@[inline] def ub (d : Domains K) (v : VarId) : K := d.upper.getD v 0

@[inline] def globalLb (d : Domains K) (v : VarId) : K := d.globalLower.getD v 0

@[inline] def globalUb (d : Domains K) (v : VarId) : K := d.globalUpper.getD v 0

@[inline] def isIntegral (d : Domains K) (v : VarId) : Bool := d.integral.getD v false

/-- Whether the local domain is a single point, up to the tolerance. -/
def isFixed (d : Domains K) (v : VarId) : Bool := decide (d.ub v - d.lb v ≤ d.tol)

/-- Whether the global domain is a single point, up to the tolerance. -/
def isGloballyFixed (d : Domains K) (v : VarId) : Bool := decide (d.globalUb v - d.globalLb v ≤ d.tol)

def hasEmptyDomain (d : Domains K) : Bool := decide (0 < d.emptyDomains)

/-- The nodes of the active path, the root first. -/
def path (d : Domains K) : List NodeId := (d.frames.map Frame.node).reverse

/-- The depth of the active node. -/
def depth? (d : Domains K) : Option Nat := if d.frames.isEmpty then none else some (d.frames.length - 1)

/-- The active node. -/
def focus? (d : Domains K) : Option NodeId := d.frames.head?.map Frame.node

/-- Whether changes are global: no node is entered below the root. -/
def atRoot (d : Domains K) : Bool := decide (d.frames.length ≤ 1)

/-- The changes made at the active node, the oldest first. -/
def focusDelta (d : Domains K) : List (BoundChange K) :=
  match d.frames with
  | [] => []
  | f :: _ => f.changes.reverse

/-- The least movement of a bound that counts as a tightening. -/
@[inline] def boundEps (bound : K) : K := 1e-9 * Scalar.max (Scalar.abs bound) 1

/-- Records an applied change: the local bound, at the root the global one, the
frame of the active node and the pending changes. -/
def record (d : Domains K) (v : VarId) (kind : BoundKind) (value : K) (reason : Reason) : Domains K :=
  let old := match kind with
    | .lower => d.lb v
    | .upper => d.ub v
  let atRoot := d.atRoot
  let d := match kind with
    | .lower =>
      let d := { d with lower := d.lower.setIfInBounds v value }
      if atRoot then { d with globalLower := d.globalLower.modify v (Scalar.max · value) } else d
    | .upper =>
      let d := { d with upper := d.upper.setIfInBounds v value }
      if atRoot then { d with globalUpper := d.globalUpper.modify v (Scalar.min · value) } else d
  let change : BoundChange K := { var := v, kind, old, new := value, reason }
  { d with
    frames := match d.frames with
      | [] => []
      | f :: fs => { f with changes := change :: f.changes } :: fs
    pending := (v, kind) :: d.pending }

/-- What a request for a bound comes to: the value to record, or nothing to do.
Bounds of integral variables are rounded inwards first, and a value that crosses
the opposite bound within the tolerance stops there. -/
def judge (d : Domains K) (v : VarId) (kind : BoundKind) (value : K) : Tightening × K :=
  if Scalar.isNaN value then (.redundant, value)
  else
    match kind with
    | .lower =>
      let value := if d.isIntegral v then Scalar.ceil (value - d.tol) else value
      if value ≤ d.lb v + boundEps (d.lb v) then (.redundant, value)
      else if d.ub v + d.tol < value then (.infeasible, value)
      else (.applied, Scalar.min value (d.ub v))
    | .upper =>
      let value := if d.isIntegral v then Scalar.floor (value + d.tol) else value
      if d.ub v - boundEps (d.ub v) ≤ value then (.redundant, value)
      else if value < d.lb v - d.tol then (.infeasible, value)
      else (.applied, Scalar.max value (d.lb v))

/-- Tightens one bound. Only an applied request changes anything. -/
def tighten (d : Domains K) (v : VarId) (kind : BoundKind) (value : K) (reason : Reason) :
    Tightening × Domains K :=
  match d.judge v kind value with
  | (.applied, value) => (.applied, d.record v kind value reason)
  | (outcome, _) => (outcome, d)

/-- Takes the pending changes, the oldest first. -/
def drainPending (d : Domains K) : List (VarId × BoundKind) × Domains K :=
  (d.pending.reverse, { d with pending := [] })

/-- Forgets the pending changes. -/
def clearPending (d : Domains K) : Domains K := { d with pending := [] }

/-- Puts the old bound of a change back. -/
def revert (d : Domains K) (c : BoundChange K) : Domains K :=
  match c.kind with
  | .lower => { d with lower := d.lower.setIfInBounds c.var c.old }
  | .upper => { d with upper := d.upper.setIfInBounds c.var c.old }

/-- Leaves the deepest node. -/
def leave (d : Domains K) : Domains K :=
  match d.frames with
  | [] => d
  | f :: fs => { f.changes.foldl revert d with frames := fs }

/-- Leaves nodes until `keep` are left. Off the path local bounds are the global ones. -/
def leaveTo (d : Domains K) (keep : Nat) : Domains K :=
  let d := (d.frames.length - keep).repeat leave d
  if d.frames.isEmpty then { d with lower := d.globalLower, upper := d.globalUpper } else d

/-- Applies changes in order until one is infeasible. -/
def replay (d : Domains K) : List (BoundChange K) → Bool × Domains K
  | [] => (true, d)
  | c :: cs =>
    match d.tighten c.var c.kind c.new c.reason with
    | (.infeasible, d) => (false, d)
    | (_, d) => replay d cs

/-- Enters a node: its frame, and its stored changes unless an earlier replay failed. -/
def enter (delta : NodeId → List (BoundChange K)) (acc : Bool × Domains K) (node : NodeId) :
    Bool × Domains K :=
  let d := { acc.2 with frames := { node } :: acc.2.frames }
  if acc.1 then d.replay (delta node) else (false, d)

/-- The length of the longest common beginning. -/
def commonLength : List NodeId → List NodeId → Nat
  | a :: as, b :: bs => if a = b then commonLength as bs + 1 else 0
  | _, _ => 0

/-- Makes `target` (the root first) the active path. Nodes shared with the
current path stay entered. Answers whether all replayed changes were feasible;
if not, the target has to be discarded. -/
def restore (d : Domains K) (target : List NodeId) (delta : NodeId → List (BoundChange K)) :
    Bool × Domains K :=
  let common := commonLength d.path target
  let (feasible, d) := (target.drop common).foldl (enter delta) (true, d.leaveTo common)
  (feasible, d.clearPending)

/-- Leaves all nodes; global bounds stay. -/
def reset (d : Domains K) : Domains K := (d.leaveTo 0).clearPending

end Domains

end BranchAndCut

import Std.Data.TreeMap.Basic
import BranchAndCut.Arrays
import BranchAndCut.Error

/-! The constraints of a model and the active path. Global constraints are
always active; a local one is active exactly while its node is on the path. -/

namespace BranchAndCut

/-- Where a constraint is valid. -/
inductive Scope where
  | everywhere
  /-- In the subtree of a node. -/
  | below (node : NodeId)
deriving DecidableEq, Repr

/-- A registered constraint. -/
structure ConsRecord where
  handler : HandlerId
  /-- Its index within the family. -/
  index : Nat
  scope : Scope
  deleted : Bool := false
deriving DecidableEq, Repr

/-- The constraints that a switch of the path made active and inactive, in order. -/
structure ActivationDelta where
  activated : List ConsId := []
  deactivated : List ConsId := []
deriving DecidableEq, Repr

structure Registry where
  records : Array ConsRecord := #[]
  /-- The active constraints of each family. -/
  active : Array (Array ConsId)
  /-- Their indices within the family, position by position. -/
  activeIndex : Array (Array Nat) := active.map (·.map fun id => ((records[id]?).map ConsRecord.index).getD 0)
  /-- The place of each constraint among the active ones of its family. -/
  activePos : Array (Option Nat) := records.mapIdx fun id c => (active.getD c.handler #[]).idxOf? id
  /-- The active path, the deepest node first, with the constraints that became
  active there. -/
  path : List (NodeId × Array ConsId) := []
  /-- The local constraints of each node. -/
  byNode : Std.TreeMap NodeId (Array ConsId) := ∅

namespace Registry

def new (numHandlers : Nat) : Registry where
  active := Array.replicate numHandlers #[]
  activeIndex := Array.replicate numHandlers #[]

/-- Makes room for one more family. -/
def addHandler (r : Registry) : HandlerId × Registry :=
  (r.active.size, { r with active := r.active.push #[], activeIndex := r.activeIndex.push #[] })

/-- The number of constraints ever registered. -/
def size (r : Registry) : Nat := r.records.size

/-- The record of a constraint. -/
def record (r : Registry) (id : ConsId) : ConsRecord := r.records.getD id ⟨0, 0, .everywhere, true⟩

def handler (r : Registry) (id : ConsId) : HandlerId := (r.record id).handler

def index (r : Registry) (id : ConsId) : Nat := (r.record id).index

def isDeleted (r : Registry) (id : ConsId) : Bool := (r.record id).deleted

/-- The active constraints of a family. -/
def activeOf (r : Registry) (h : HandlerId) : Array ConsId := r.active.getD h #[]

/-- The indices within the family of its active constraints. -/
def activeIndices (r : Registry) (h : HandlerId) : List Nat := (r.activeIndex.getD h #[]).toList

/-- The place of a constraint among the active ones of its family, if it is active. -/
def pos? (r : Registry) (id : ConsId) : Option Nat := r.activePos.getD id none

def isActive (r : Registry) (id : ConsId) : Bool := (r.pos? id).isSome

/-- All active constraints, family by family. -/
def allActive (r : Registry) : List ConsId := r.active.toList.flatMap Array.toList

/-- Makes a constraint active unless it is. -/
def activate (r : Registry) (id : ConsId) : Registry :=
  if r.isActive id then r
  else
    let c := r.record id
    { r with
      active := r.active.modify c.handler (·.push id)
      activeIndex := r.activeIndex.modify c.handler (·.push c.index)
      activePos := r.activePos.setIfInBounds id (some (r.activeOf c.handler).size) }

/-- Makes a constraint inactive; answers whether it was active. -/
def deactivate (r : Registry) (id : ConsId) : Bool × Registry :=
  match r.pos? id with
  | none => (false, r)
  | some pos =>
    let h := r.handler id
    let r := { r with
      active := r.active.modify h (swapRemove · pos)
      activeIndex := r.activeIndex.modify h (swapRemove · pos)
      activePos := r.activePos.setIfInBounds id none }
    match (r.activeOf h)[pos]? with
    | some moved => (true, { r with activePos := r.activePos.setIfInBounds moved (some pos) })
    | none => (true, r)

/-- The local constraints added at a node. -/
def ofNode (r : Registry) (node : NodeId) : Array ConsId := r.byNode.getD node #[]

/-- Notes a constraint that became active at a node of the path, at the place
nearest to the root. -/
def noteEntered (id : ConsId) (node : NodeId) : List (NodeId × Array ConsId) → List (NodeId × Array ConsId)
  | [] => []
  | (n, entered) :: rest =>
    if n = node ∧ !(rest.any fun (m, _) => m == node) then (n, entered.push id) :: rest
    else (n, entered) :: noteEntered id node rest

/-- Registers a constraint. A local one whose node is not on the path waits
until the node is entered. -/
def add (r : Registry) (handler : HandlerId) (index : Nat) (scope : Scope) {K : Type} :
    Except (Error K) (ConsId × Registry) :=
  if r.active.size ≤ handler then throw (.internal (.unknownHandler handler))
  else
    let id := r.records.size
    let r := { r with
      records := r.records.push { handler, index, scope }
      activePos := r.activePos.push none }
    pure <| match scope with
      | .everywhere => (id, r.activate id)
      | .below node =>
        let r := { r with byNode := r.byNode.insert node ((r.ofNode node).push id) }
        if r.path.any fun (n, _) => n == node then
          (id, { r with path := noteEntered id node r.path }.activate id)
        else (id, r)

/-- Deletes a constraint; it never becomes active again. -/
def delete (r : Registry) (id : ConsId) : Registry :=
  let r := (r.deactivate id).2
  { r with records := r.records.modify id fun c => { c with deleted := true } }

/-- Deletes the local constraints of a node that has left the tree. -/
def releaseNode (r : Registry) (node : NodeId) : List ConsId × Registry :=
  let ids := (r.ofNode node).toList
  (ids, ids.foldl delete { r with byNode := r.byNode.erase node })

/-- Leaves the deepest node of the path; constraints go in reverse order. -/
def leave (r : Registry) (delta : ActivationDelta) : Registry × ActivationDelta :=
  match r.path with
  | [] => (r, delta)
  | (_, entered) :: path =>
    entered.toList.reverse.foldl (fun (r, delta) id =>
      match r.deactivate id with
      | (true, r) => (r, { delta with deactivated := delta.deactivated ++ [id] })
      | (false, r) => (r, delta)) ({ r with path }, delta)

/-- Enters a node; its constraints become active in order. -/
def enter (acc : Registry × ActivationDelta) (node : NodeId) : Registry × ActivationDelta :=
  let (r, delta) := acc
  let entered := (r.ofNode node).filter fun id => !r.isDeleted id && !r.isActive id
  ({ entered.foldl activate r with path := (node, entered) :: r.path },
    { delta with activated := delta.activated ++ entered.toList })

/-- The number of nodes shared by the beginnings of the path and of a target. -/
def common : List NodeId → List NodeId → Nat
  | a :: as, b :: bs => if a = b then common as bs + 1 else 0
  | _, _ => 0

/-- Makes `target` (the root first) the active path: nodes left are taken the
deepest first, nodes entered the shallowest first. -/
def switchPath (r : Registry) (target : List NodeId) : ActivationDelta × Registry :=
  let shared := common (r.path.map Prod.fst).reverse target
  let start : Registry × ActivationDelta := (r, {})
  let left := (r.path.length - shared).repeat (fun (r, delta) => leave r delta) start
  let (r, delta) := (target.drop shared).foldl enter left
  (delta, r)

end Registry

end BranchAndCut

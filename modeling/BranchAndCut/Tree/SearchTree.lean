import BranchAndCut.Tree.Node
import BranchAndCut.Tree.Queue

/-! The search tree: every node that is open, being processed or unresolved, and
every closed node with children still in the tree. A closed node is removed with
its last child; the numbers of removed nodes are kept until they are drained. -/

namespace BranchAndCut

structure SearchTree (K : Type) where
  nodes : Std.TreeMap NodeId (Node K) := ∅
  queue : Queue K
  nextId : Nat := 0
  /-- Nodes removed since the last drain, the newest first. -/
  released : List NodeId := []
  /-- Nodes kept for the dual bound, the newest first. -/
  unresolved : List NodeId := []
  prunedByBound : Nat := 0
  /-- The depth of the deepest node created. -/
  maxDepth : Nat := 0

/-- Operations on the tree; one that fails leaves the tree as far as it got. -/
abbrev TreeM (K : Type) := EStateM (Error K) (SearchTree K)

namespace SearchTree

variable {K : Type} [Scalar K]

def new (selection : NodeSelection) : SearchTree K where
  queue := Queue.new selection

/-- A live node. -/
def node? (t : SearchTree K) (id : NodeId) : Option (Node K) := t.nodes[id]?

/-- A live node, expected to be there. -/
def getNode (t : SearchTree K) (id : NodeId) : Except (Error K) (Node K) :=
  match t.node? id with
  | some n => pure n
  | none => throw (.internal (.noNode id))

/-- Replaces a node. -/
def setNode (t : SearchTree K) (n : Node K) : SearchTree K := { t with nodes := t.nodes.insert n.id n }

/-- Changes a live node; others are ignored. -/
def modifyNode (t : SearchTree K) (id : NodeId) (f : Node K → Node K) : SearchTree K :=
  match t.node? id with
  | some n => t.setNode (f n)
  | none => t

/-- Creates and queues the root. -/
def createRoot (bound : K) : TreeM K NodeId := do
  let t ← get
  if !t.nodes.isEmpty then throw (.internal .rootTwice)
  let id := t.nextId
  set { (t.setNode (Node.root id bound)) with nextId := id + 1, queue := t.queue.push id bound bound 0 }
  pure id

/-- The ancestors of a node and the node itself, after the part of the path
already known. The number of live nodes bounds the length of the path. -/
def pathFrom (t : SearchTree K) (id : NodeId) (path : List NodeId) : Nat → Except (Error K) (List NodeId)
  | 0 => throw .outOfSteps
  | fuel + 1 => do
    let n ← t.getNode id
    match n.parent with
    | none => pure (id :: path)
    | some p => t.pathFrom p (id :: path) fuel

/-- The path from the root to a node, the root first. -/
def pathTo (t : SearchTree K) (id : NodeId) : Except (Error K) (List NodeId) :=
  t.pathFrom id [] (t.nodes.size + 1)

/-- The bound changes of a node, none for unknown nodes. -/
def delta (t : SearchTree K) (id : NodeId) : List (BoundChange K) :=
  match t.node? id with
  | some n => n.changes
  | none => []

/-- Appends changes found by propagation to those of a node, so that following
the path reproduces them without propagating again. -/
def recordChanges (id : NodeId) (changes : List (BoundChange K)) : TreeM K Unit := do
  let t ← get
  match t.node? id with
  | none => throw (.internal (.noNode id))
  | some n => set (t.setNode { n with changes := n.changes ++ changes })

/-- Removes closed nodes without children, from a node upwards. -/
def removeUpwards (id : NodeId) : Nat → TreeM K Unit
  | 0 => throw .outOfSteps
  | fuel + 1 => do
    let t ← get
    match t.node? id with
    | none => throw (.internal (.noNode id))
    | some n =>
      if n.status.isClosed && n.liveChildren == 0 then
        let t := { t with nodes := t.nodes.erase id, released := id :: t.released }
        set t
        match n.parent with
        | none => pure ()
        | some p =>
          match t.node? p with
          | none => throw (.internal (.noNode p))
          | some pn =>
            set (t.setNode { pn with liveChildren := pn.liveChildren - 1 })
            removeUpwards p fuel

/-- Gives a node its final status, and removes it and the ancestors left
without children. -/
def close (id : NodeId) (status : NodeStatus) : TreeM K Unit := do
  let t ← get
  match t.node? id with
  | none => throw (.internal (.noNode id))
  | some n =>
    set (t.setNode { n with status })
    removeUpwards id (t.nodes.size + 1)

/-- Closes a node without children. -/
def prune (id : NodeId) (reason : PruneReason) : TreeM K Unit := close id (.pruned reason)

/-- Takes nodes from the queue until one is worth processing; the others are
closed as dominated. -/
def popLoop (prunable : K → Bool) : Nat → TreeM K (Option NodeId)
  | 0 => pure none
  | fuel + 1 => do
    let t ← get
    match t.queue.pop with
    | (none, queue) =>
      set { t with queue }
      pure none
    | (some id, queue) =>
      let t := { t with queue }
      set t
      match t.node? id with
      | none => throw (.internal (.noNode id))
      | some n =>
        if prunable n.dualBound then
          set { t with prunedByBound := t.prunedByBound + 1 }
          close id (.pruned .boundExceeded)
          popLoop prunable fuel
        else
          set (t.setNode { n with status := .solving })
          pure (some id)

/-- The next node to process. -/
def popNext (prunable : K → Bool) : TreeM K (Option NodeId) := do
  popLoop prunable ((← get).queue.size + 1)

/-- The child that a specification describes. -/
def childOf (parent : Node K) (d : BranchingDecision K) (parentObjective : K) (id : NodeId)
    (spec : ChildSpec K) : Node K :=
  let child := parent.child id spec.changes spec.estimate
  match d.var, spec.dir with
  | some candidate, some dir => { child with origin := some { candidate, dir, parentObjective } }
  | _, _ => child

/-- Adds a child to the tree and the queue. -/
def addChild (t : SearchTree K) (child : Node K) : SearchTree K :=
  { t.setNode child with
    maxDepth := Nat.max t.maxDepth child.depth
    queue := t.queue.push child.id child.dualBound child.estimate child.depth }

/-- Creates and queues the children of a branched node, which keeps a basis for
them. Numbers are taken for the children before the parent is looked up. -/
def pushChildren (parent : NodeId) (d : BranchingDecision K) (parentObjective : K)
    (basis : Option SavedBasis) : TreeM K (List NodeId) := do
  let count := d.children.length
  if count < 2 then throw (.internal (.fewChildren parent count))
  let first := (← get).nextId
  modify fun t => { t with nextId := first + count }
  let t ← get
  match t.node? parent with
  | none => throw (.internal (.noNode parent))
  | some n =>
    let children := d.children.zipIdx.map fun (spec, k) => childOf n d parentObjective (first + k) spec
    let ids := children.map Node.id
    let t := children.foldl addChild t
    let t := t.modifyNode parent fun n => { n with status := .branched, liveChildren := count, basis }
    set { t with queue := t.queue.setLastChildren ids }
    pure ids

/-- Keeps a node that could be neither solved nor split. -/
def markUnresolved (id : NodeId) : TreeM K Unit := do
  let t ← get
  match t.node? id with
  | none => throw (.internal (.noNode id))
  | some n => set { t.setNode { n with status := .unresolved } with unresolved := id :: t.unresolved }

/-- Closes the open nodes whose bound satisfies a condition; the answer is how many. -/
def pruneDominated (prunable : K → Bool) : TreeM K Nat := do
  let removed ← modifyGet fun t =>
    let (removed, queue) := t.queue.prune prunable
    (removed, { t with queue })
  removed.forM fun id => close id (.pruned .boundExceeded)
  modify fun t => { t with prunedByBound := t.prunedByBound + removed.length }
  pure removed.length

/-- Closes all open nodes, because the search stops. -/
def abandonOpen : TreeM K Unit := do
  let removed ← modifyGet fun t =>
    let (removed, queue) := t.queue.drain
    (removed, { t with queue })
  removed.forM fun id => close id (.pruned .abandoned)

/-- The lowest dual bound of the open and the unresolved nodes, infinite if there are none. -/
def lowestBound (t : SearchTree K) : K × SearchTree K :=
  let unresolved := (t.unresolved.reverse.filterMap t.node?).foldl
    (fun m n => Scalar.min m n.dualBound) Scalar.inf
  let (best, queue) := t.queue.bestBound
  (Scalar.min best unresolved, { t with queue })

/-- Tells the selection rule whether there is an incumbent. -/
def setHasIncumbent (t : SearchTree K) (has : Bool) : SearchTree K :=
  { t with queue := { t.queue with hasIncumbent := has } }

/-- Takes the numbers of removed nodes, the oldest first. -/
def drainReleased (t : SearchTree K) : List NodeId × SearchTree K :=
  (t.released.reverse, { t with released := [] })

def numOpen (t : SearchTree K) : Nat := t.queue.size

def numNodes (t : SearchTree K) : Nat := t.nodes.size

def numUnresolved (t : SearchTree K) : Nat := t.unresolved.length

end SearchTree

end BranchAndCut

import Std.Data.TreeMap.Basic
import BranchAndCut.Settings
import BranchAndCut.Tree.Heap

/-! The open nodes, with one heap for each order in which they may be picked.
Deletion is lazy: a heap may hold keys of nodes that have left the queue, which
are skipped when they come up and dropped once they dominate the heaps. -/

namespace BranchAndCut

/-- What the queue knows of an open node. -/
structure OpenNode (K : Type) where
  bound : K
  estimate : K
  depth : Nat

/-- A heap with the number of its keys. -/
structure SizedHeap (K : Type) where
  heap : Heap K := .empty
  size : Nat := 0

namespace SizedHeap

variable {K : Type} [Scalar K]

def insert (h : SizedHeap K) (key : HeapKey K) : SizedHeap K := ⟨h.heap.insert key, h.size + 1⟩

def filter (h : SizedHeap K) (p : HeapKey K → Bool) : SizedHeap K :=
  let heap := h.heap.filter p
  ⟨heap, heap.size⟩

end SizedHeap

structure Queue (K : Type) where
  selection : NodeSelection
  /-- The open nodes. -/
  members : Std.TreeMap NodeId (OpenNode K) := ∅
  /-- The lowest bound first. -/
  byBound : SizedHeap K := {}
  /-- The deepest first, ties by bound. -/
  byDepth : SizedHeap K := {}
  /-- The lowest estimate first, ties by bound. -/
  byEstimate : SizedHeap K := {}
  /-- The children of the node picked last. -/
  lastChildren : List NodeId := []
  /-- Picks of such children in a row. -/
  plungeDepth : Nat := 0
  hasIncumbent : Bool := false
  totalAdded : Nat := 0
  totalPopped : Nat := 0

namespace Queue

variable {K : Type} [Scalar K]

def new (selection : NodeSelection) : Queue K where
  selection := selection

def size (q : Queue K) : Nat := q.members.size

def isEmpty (q : Queue K) : Bool := q.members.isEmpty

def contains (q : Queue K) (id : NodeId) : Bool := q.members.contains id

/-- Adds an open node. -/
def push (q : Queue K) (id : NodeId) (bound estimate : K) (depth : Nat) : Queue K :=
  { q with
    members := q.members.insert id { bound, estimate, depth }
    byBound := q.byBound.insert { first := bound, second := 0, id }
    byDepth := q.byDepth.insert { first := -(Scalar.ofNat depth), second := bound, id }
    byEstimate := q.byEstimate.insert { first := estimate, second := bound, id }
    totalAdded := q.totalAdded + 1 }

/-- The least key of a heap whose node is still open, and the heap behind it. -/
def popOpen? (members : Std.TreeMap NodeId (OpenNode K)) (h : SizedHeap K) :
    Nat → Option NodeId × SizedHeap K
  | 0 => (none, h)
  | fuel + 1 =>
    match h.heap.pop? with
    | none => (none, h)
    | some (key, heap) =>
      let h := ⟨heap, h.size - 1⟩
      if members.contains key.id then (some key.id, h) else popOpen? members h fuel

/-- Picks by bound. -/
def popBound (q : Queue K) : Option NodeId × Queue K :=
  let (id, h) := popOpen? q.members q.byBound (q.byBound.size + 1)
  (id, { q with byBound := h })

/-- Picks by depth. -/
def popDepth (q : Queue K) : Option NodeId × Queue K :=
  let (id, h) := popOpen? q.members q.byDepth (q.byDepth.size + 1)
  (id, { q with byDepth := h })

/-- Picks by estimate. -/
def popEstimate (q : Queue K) : Option NodeId × Queue K :=
  let (id, h) := popOpen? q.members q.byEstimate (q.byEstimate.size + 1)
  (id, { q with byEstimate := h })

/-- The better of two open nodes by bound, then by number. -/
def betterChild (a b : NodeId × K) : NodeId × K :=
  match (Scalar.totalOrder b.2 a.2).then (compare b.1 a.1) with
  | .lt => b
  | _ => a

/-- The open child of the node picked last that has the best bound. -/
def plungeChild? (q : Queue K) : Option NodeId :=
  let opened := q.lastChildren.filterMap fun id => q.members[id]?.map fun e => (id, e.bound)
  match opened with
  | [] => none
  | c :: cs => some (cs.foldl betterChild c).1

/-- The pick of the selection rule. -/
def pick (q : Queue K) : Option NodeId × Queue K :=
  match q.selection with
  | .bestBound => q.popBound
  | .depthFirst => q.popDepth
  | .bestEstimate => q.popEstimate
  | .hybrid diveFreq => if q.totalPopped % Nat.max diveFreq 1 = 0 then q.popDepth else q.popBound
  | .twoPhase => if q.hasIncumbent then q.popBound else q.popDepth
  | .plunging maxDepth =>
    match q.plungeChild? with
    | some id =>
      if q.plungeDepth < maxDepth then (some id, { q with plungeDepth := q.plungeDepth + 1 })
      else { q with plungeDepth := 0 }.popBound
    | none => { q with plungeDepth := 0 }.popBound

/-- Drops keys of nodes that have left, once they dominate the heaps. -/
def compact (q : Queue K) : Queue K :=
  if q.byBound.size ≤ 2 * q.size + 64 then q
  else
    let isOpen (k : HeapKey K) : Bool := q.members.contains k.id
    { q with
      byBound := q.byBound.filter isOpen
      byDepth := q.byDepth.filter isOpen
      byEstimate := q.byEstimate.filter isOpen }

/-- Takes the next node to process. -/
def pop (q : Queue K) : Option NodeId × Queue K :=
  if q.isEmpty then (none, q)
  else
    match q.pick with
    | (none, q) => (none, q)
    | (some id, q) =>
      (some id,
        { q with
          members := q.members.erase id
          lastChildren := []
          totalPopped := q.totalPopped + 1 }.compact)

/-- Takes nodes until none is left, as they would be processed. -/
def popAll (q : Queue K) : List NodeId × Queue K :=
  let rec go (q : Queue K) (ids : List NodeId) : Nat → List NodeId × Queue K
    | 0 => (ids.reverse, q)
    | fuel + 1 =>
      match q.pop with
      | (some id, q) => go q (id :: ids) fuel
      | (none, q) => (ids.reverse, q)
  go q [] (q.size + 1)

/-- Remembers the children just created. -/
def setLastChildren (q : Queue K) (children : List NodeId) : Queue K :=
  { q with lastChildren := children }

/-- Drops the leading keys of a heap whose nodes have left. -/
def dropStale (members : Std.TreeMap NodeId (OpenNode K)) (h : SizedHeap K) :
    Nat → Option K × SizedHeap K
  | 0 => (none, h)
  | fuel + 1 =>
    match h.heap.pop? with
    | none => (none, h)
    | some (key, heap) =>
      if members.contains key.id then (some key.first, h)
      else dropStale members ⟨heap, h.size - 1⟩ fuel

/-- The lowest bound of an open node, infinite if there is none. -/
def bestBound (q : Queue K) : K × Queue K :=
  let (bound, h) := dropStale q.members q.byBound (q.byBound.size + 1)
  (bound.getD Scalar.inf, { q with byBound := h })

/-- Removes the nodes whose bound satisfies a condition; the answer is their
numbers in increasing order. -/
def prune (q : Queue K) (prunable : K → Bool) : List NodeId × Queue K :=
  let removed := (q.members.toList.filter fun (_, e) => prunable e.bound).map Prod.fst
  (removed, { q with members := removed.foldl (fun m id => m.erase id) q.members }.compact)

/-- Removes all nodes; the answer is their numbers in increasing order. -/
def drain (q : Queue K) : List NodeId × Queue K :=
  (q.members.keys,
    { q with members := ∅, byBound := {}, byDepth := {}, byEstimate := {}, lastChildren := [] })

end Queue

end BranchAndCut

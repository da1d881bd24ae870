import BranchAndCut.Row

/-! Leftist heaps of nodes, ordered by two numbers and the node, the least
first. Numbers compare by their total order. -/

namespace BranchAndCut

structure HeapKey (K : Type) where
  first : K
  second : K
  id : NodeId

namespace HeapKey

variable {K : Type} [Scalar K]

/-- The lexicographic order of keys. -/
def compare (a b : HeapKey K) : Ordering :=
  (Scalar.totalOrder a.first b.first).then <|
    (Scalar.totalOrder a.second b.second).then (Ord.compare a.id b.id)

/-- Whether `a` comes no later than `b`. -/
def le (a b : HeapKey K) : Bool := a.compare b != .gt

end HeapKey

/-- A binary tree whose rank is the length of its right spine. -/
inductive Heap (K : Type) where
  | empty
  | node (rank : Nat) (key : HeapKey K) (left right : Heap K)

namespace Heap

variable {K : Type}

/-- The number of keys. -/
def size : Heap K → Nat
  | empty => 0
  | node _ _ l r => l.size + r.size + 1

def rank : Heap K → Nat
  | empty => 0
  | node n _ _ _ => n

/-- A node with the shorter spine on the right. -/
def make (key : HeapKey K) (a b : Heap K) : Heap K :=
  if b.rank ≤ a.rank then node (b.rank + 1) key a b else node (a.rank + 1) key b a

/-- The keys in no particular order. -/
def toList : Heap K → List (HeapKey K)
  | empty => []
  | node _ k l r => k :: (l.toList ++ r.toList)

variable [Scalar K]

/-- The union of two heaps. -/
def merge : Heap K → Heap K → Heap K
  | empty, b => b
  | a, empty => a
  | node m x l r, node n y l' r' =>
    if x.le y then make x l (merge r (node n y l' r'))
    else make y l' (merge (node m x l r) r')
termination_by a b => a.size + b.size
decreasing_by all_goals (simp only [size]; omega)

def insert (h : Heap K) (key : HeapKey K) : Heap K := merge (node 1 key empty empty) h

/-- The least key and the rest. -/
def pop? : Heap K → Option (HeapKey K × Heap K)
  | empty => none
  | node _ k l r => some (k, merge l r)

/-- The heap of the keys that satisfy a condition. -/
def filter (p : HeapKey K → Bool) (h : Heap K) : Heap K :=
  (h.toList.filter p).foldl insert empty

end Heap

end BranchAndCut

import BranchAndCut.Row

/-! Locks: for each variable the number of constraints that moving it down, or
up, may violate. Counts only grow, so a count of zero can always be relied on.
They are counted without end, as 32 bits do while there are fewer constraints
than they can count. -/

namespace BranchAndCut

/-- The directions in which moving a variable may violate a constraint. -/
structure Lock where
  var : VarId
  down : Bool
  up : Bool
deriving DecidableEq, Repr

structure LockTable where
  downs : Array Nat
  ups : Array Nat
deriving Repr

namespace LockTable

/-- A table without locks. -/
def new (numVars : Nat) : LockTable where
  downs := Array.replicate numVars 0
  ups := Array.replicate numVars 0

/-- Adds one to an entry, extending the counts where they are too short. -/
def bump (counts : Array Nat) (i : Nat) (locked : Bool) : Array Nat :=
  let counts := counts ++ Array.replicate (i + 1 - counts.size) 0
  counts.modify i (· + locked.toNat)

/-- Adds the locks of one constraint. -/
def add (t : LockTable) (locks : List Lock) : LockTable :=
  locks.foldl (fun t l => { downs := bump t.downs l.var l.down, ups := bump t.ups l.var l.up }) t

/-- The number of locks on moving a variable down. -/
def down (t : LockTable) (v : VarId) : Nat := t.downs.getD v 0

/-- The number of locks on moving a variable up. -/
def up (t : LockTable) (v : VarId) : Nat := t.ups.getD v 0

/-- Rounding down cannot violate any constraint. -/
def mayRoundDown (t : LockTable) (v : VarId) : Bool := t.down v == 0

/-- Rounding up cannot violate any constraint. -/
def mayRoundUp (t : LockTable) (v : VarId) : Bool := t.up v == 0

end LockTable

end BranchAndCut

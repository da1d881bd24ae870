import BranchAndCut.Row

/-! Bounds of variables and recorded changes of them. -/

namespace BranchAndCut

inductive BoundKind where
  | lower
  | upper
deriving DecidableEq, Repr, Inhabited

/-- Why a bound changed. -/
inductive Reason where
  /-- The branching that created the node. -/
  | branching
  | propagation (handler : HandlerId)
  /-- The closure under implications and cliques. -/
  | implication
  /-- Before the search. -/
  | formulation
deriving DecidableEq, Repr, Inhabited

/-- A recorded bound change. -/
structure BoundChange (K : Type) where
  var : VarId
  kind : BoundKind
  old : K
  new : K
  reason : Reason

namespace BoundChange

variable {K : Type}

/-- A branching change of an upper bound. -/
def upper (v : VarId) (old new : K) : BoundChange K := ⟨v, .upper, old, new, .branching⟩

/-- A branching change of a lower bound. -/
def lower (v : VarId) (old new : K) : BoundChange K := ⟨v, .lower, old, new, .branching⟩

variable [Scalar K]

/-- The branching `x ≤ ⌊value⌋`. -/
def down (v : VarId) (oldUpper value : K) : BoundChange K := upper v oldUpper (Scalar.floor value)

/-- The branching `x ≥ ⌈value⌉`. -/
def up (v : VarId) (oldLower value : K) : BoundChange K := lower v oldLower (Scalar.ceil value)

end BoundChange

/-- The outcome of a request to tighten a bound. -/
inductive Tightening where
  | applied
  /-- The value does not tighten; nothing changed. -/
  | redundant
  /-- The value crosses the opposite bound; nothing changed. -/
  | infeasible
deriving DecidableEq, Repr

end BranchAndCut

import BranchAndCut.Domain.Store

/-! Cutting planes, and what is known where they are looked for. -/

namespace BranchAndCut

structure Cut (K : Type) where
  name : String
  row : Row K
  /-- Valid only in the subtree of the node where it was found. -/
  isLocal : Bool
  /-- The family or separator that found it. -/
  source : String

/-- A relaxation solution to be cut off. -/
structure Fractional (K : Type) where
  x : Array K
  domains : Domains K
  depth : Nat
  feasTol : K

end BranchAndCut

/-! Arrays from which entries are taken out without regard to their order. -/

namespace BranchAndCut

/-- Removes an entry by moving the last one into its place. -/
def swapRemove {α : Type} (xs : Array α) (pos : Nat) : Array α :=
  match xs.back? with
  | some last => (xs.setIfInBounds pos last).pop
  | none => xs

end BranchAndCut

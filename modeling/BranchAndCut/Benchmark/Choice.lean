import BranchAndCut.Settings

/-! Search settings as they are chosen by name. -/

namespace BranchAndCut.Benchmark

/-- The node selections on offer, with their names. -/
def selections : List (String × NodeSelection) := [
  ("best-bound", .bestBound),
  ("depth-first", .depthFirst),
  ("best-estimate", .bestEstimate),
  ("hybrid", .hybrid 5),
  ("two-phase", .twoPhase),
  ("plunging", .plunging 10)]

/-- The branching rules on offer, with their names. -/
def branchings : List (String × BranchingRule) := [
  ("most-fractional", .mostFractional),
  ("pseudocost", .pseudocost),
  ("hybrid", .hybrid 20)]

/-- A choice of search settings, by names on offer. -/
structure Choice where
  selection : String
  branching : String
  cuts : Bool := true
deriving DecidableEq, Repr

/-- A name that is not on offer. -/
structure UnknownName where
  /-- What was to be chosen. -/
  field : String
  text : String
deriving DecidableEq, Repr

def UnknownName.message (u : UnknownName) : String := u.field ++ " " ++ u.text

namespace Choice

/-- The choice with some names. -/
def ofNames (selection branching : String) (cuts : Bool) : Except UnknownName Choice := do
  if (selections.lookup selection).isNone then throw ⟨"selection", selection⟩
  if (branchings.lookup branching).isNone then throw ⟨"branching", branching⟩
  return { selection, branching, cuts }

/-- A short label for reports, such as `best-bound/pseudocost`. -/
def label (c : Choice) : String :=
  c.selection ++ "/" ++ c.branching ++ (if c.cuts then "" else "/nocuts")

variable {K : Type} [Scalar K]

/-- The settings of a choice under limits; unknown names mean the defaults. -/
def settings (c : Choice) (nodeLimit : Nat) (timeLimit : Option K) : Settings K :=
  let s : Settings K := { (Settings.default : Settings K) with
    nodeSelection := (selections.lookup c.selection).getD .bestBound
    branchingRule := (branchings.lookup c.branching).getD .mostFractional
    nodeLimit }
  let s := match timeLimit with
    | some seconds => s.withTimeLimit seconds
    | none => s
  if c.cuts then s else s.withoutCuts

end Choice

end BranchAndCut.Benchmark

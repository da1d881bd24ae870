import BranchAndCut.Cut.Pool
import BranchAndCut.Json.Decode
import BranchAndCut.Json.Encode
import BranchAndCut.Model.Basic
import BranchAndCut.Solve.Rounds
import BranchAndCut.Tree.Node

/-! The names of enumerated values, of keys and of reasons in documents. -/

namespace BranchAndCut

open Json

instance : Named BoundKind where
  names := [("lb", .lower), ("ub", .upper)]

instance : Named Tightening where
  names := [("applied", .applied), ("redundant", .redundant), ("infeasible", .infeasible)]

instance : Named Verdict where
  names := [("cutoff", .cutoff), ("reduced", .reduced), ("none", .nothing)]

instance : Named Direction where
  names := [("down", .down), ("up", .up)]

instance : Named VarType where
  names := [("binary", .binary), ("integer", .integer), ("implicit", .implicit), ("continuous", .continuous)]

instance : Named RelaxationStatus where
  names := [("optimal", .optimal), ("infeasible", .infeasible), ("unbounded", .unbounded),
    ("limit", .limitReached), ("numerical", .numericalTrouble)]

instance : Named CutStatus where
  names := [("active", .active), ("inactive", .inactive), ("deleted", .deleted)]

instance : Named PruneReason where
  names := [("infeasible", .infeasible), ("bound_exceeded", .boundExceeded), ("solved", .solved),
    ("abandoned", .abandoned)]

instance : Named RoundOutcome where
  names := [("infeasible", .infeasible), ("unbounded", .unbounded), ("cutoff", .cutoff),
    ("bound_exceeded", .boundExceeded), ("feasible", .feasible), ("fractional", .fractional),
    ("unreliable", .unreliable)]

instance : Named LinearKind where
  names := [("plain", .plain), ("lazy", .onDemand), ("modifiable", .modifiable)]

instance : Named Lp.ColumnStatus where
  names := [("B", .basic), ("L", .atLower), ("U", .atUpper), ("Z", .atZero)]

variable {K α : Type}

/-- A value by its name. -/
instance (priority := low) [Named α] : Decode α where
  decode?
    | .str (some name) => ofName? name
    | _ => none

/-- The statuses of a basis as one text, a letter for each column. -/
instance : Encode K (List Lp.ColumnStatus) where
  encode _ l := .atom (quote (String.join (l.map nameOf)))

instance : Decode (List Lp.ColumnStatus) where
  decode?
    | .str (some text) => text.toList.mapM fun c => ofName? (String.singleton c)
    | _ => none

/-- The number in a text. -/
def natOf? (digits : List Char) : Option Nat :=
  if !digits.isEmpty && digits.all Char.isDigit then
    some (digits.foldl (fun n c => 10 * n + (c.toNat - '0'.toNat)) 0)
  else none

/-- The key with a text. -/
def RowKey.ofText? (text : String) : Option RowKey :=
  match text.toList with
  | 'c' :: 'u' :: 't' :: rest => (natOf? rest).map RowKey.cut
  | 'c' :: rest => do
    let cons ← natOf? (rest.takeWhile (· != '.'))
    let k ← natOf? ((rest.dropWhile (· != '.')).drop 1)
    return .constraint cons k
  | _ => none

instance : Encode K RowKey where
  encode _ key := .atom (quote key.text)

instance : Decode RowKey where
  decode?
    | .str (some text) => RowKey.ofText? text
    | _ => none

namespace Reason

def text : Reason → String
  | .branching => "branching"
  | .propagation h => s!"prop{h}"
  | .implication => "implication"
  | .formulation => "global"

def ofText? : String → Option Reason
  | "branching" => some .branching
  | "implication" => some .implication
  | "global" => some .formulation
  | text =>
    match text.toList with
    | 'p' :: 'r' :: 'o' :: 'p' :: rest => (natOf? rest).map Reason.propagation
    | _ => none

end Reason

instance : Encode K Reason where
  encode _ r := .atom (quote r.text)

instance : Decode Reason where
  decode?
    | .str (some text) => Reason.ofText? text
    | _ => none

def NodeStatus.text : NodeStatus → String
  | .open => "open"
  | .solving => "solving"
  | .branched => "branched"
  | .pruned reason => "pruned:" ++ nameOf reason
  | .unresolved => "unresolved"

instance : Encode K NodeStatus where
  encode _ s := .atom (quote s.text)

end BranchAndCut

import BranchAndCut.Row
import BranchAndCut.Settings

/-! What can go wrong when a model is built or solved. Errors are causes; their
wording is one function, given the text of numbers. -/

namespace BranchAndCut

/-- Why a model or a part of it was refused. -/
inductive ModelFlaw (K : Type) where
  | duplicateVariable (name : String)
  | variableBounds (name : String) (lower upper : K)
  | objectiveNotFinite (name : String) (obj : K)
  | cannotBecomeBinary (name : String) (lower upper : K)
  | unknownVariable (v : VarId)
  | notBinary (name : String)
  | duplicateConstraint (name : String)
  | badCoefficient (cons : String) (coef : K) (v : VarId)
  | badSides (cons : String) (lhs rhs : K)
  | lazyModifiable (cons : String)
  | repeatedMember (set : String)
  | negativeMember (set member : String)
  | selfImplication (v : VarId)
  | implicationBound (bound : K)
  | repeatedInClique
  | notCustomHandler (handler : HandlerId)
  | noSuchConstraint (handler : String) (index : Nat)
  | settings (flaw : SettingsFlaw)
deriving Repr, DecidableEq

/-- How a plugin broke its contract. -/
inductive PluginFault (K : Type) where
  | noConstraint (index : Nat)
  | notModifiable (cons : String)
  | noColumnGeneration
  | scoreCount (got expected : Nat)
  | solutionLength (got expected : Nat)
  | undefinedBound
  | malformedCut (cut : String)
  | badColumnEntry (column : String) (coef : K) (cons : ConsId)
  | closedConstraint (column : String) (cons : ConsId)
  | refusedColumn (flaw : ModelFlaw K)
  | other (text : String)
deriving Repr, DecidableEq

/-- A broken expectation between parts of the solver. -/
inductive InternalFault where
  | noLinearConstraint (index : Nat)
  | unknownHandler (handler : HandlerId)
  | columnOrder (v expected : VarId)
  | unknownColumn (row : RowKey) (v : VarId)
  | boundLengths (lower upper columns : Nat)
  | rootTwice
  | noNode (id : NodeId)
  | fewChildren (parent : NodeId) (count : Nat)
  | cutNotPooled (id : Nat)
  | columnMismatch (v : VarId)
  /-- A domain is to be split that is narrower than 1. -/
  | narrowDomain (v : VarId)
  | other (text : String)
deriving Repr, DecidableEq

inductive Error (K : Type) where
  | invalid (flaw : ModelFlaw K)
  | relaxation (cause : Lp.Error K)
  | plugin (name : String) (fault : PluginFault K)
  | internal (fault : InternalFault)
  /-- A computation was given fewer steps than it needs. -/
  | outOfSteps
deriving Repr, DecidableEq

/-- A name in quotation marks. -/
def quoted (name : String) : String := "'" ++ name ++ "'"

/-- A pair of numbers in brackets. -/
def bracketed {K : Type} (text : K → String) (a b : K) : String := "[" ++ text a ++ ", " ++ text b ++ "]"

def ModelFlaw.text {K : Type} (text : K → String) : ModelFlaw K → String
  | .duplicateVariable n => "duplicate variable name " ++ quoted n
  | .variableBounds n l u => "variable " ++ quoted n ++ " has invalid bounds " ++ bracketed text l u
  | .objectiveNotFinite n c => "variable " ++ quoted n ++ " has non-finite objective " ++ text c
  | .cannotBecomeBinary n l u =>
    "variable " ++ quoted n ++ " with bounds " ++ bracketed text l u ++ " cannot become binary"
  | .unknownVariable v => s!"unknown variable x{v}"
  | .notBinary n => "variable " ++ quoted n ++ " is not binary"
  | .duplicateConstraint n => "duplicate constraint name " ++ quoted n
  | .badCoefficient n a v => "constraint " ++ quoted n ++ " has coefficient " ++ text a ++ s!" for x{v}"
  | .badSides n l r => "constraint " ++ quoted n ++ " has invalid sides " ++ bracketed text l r
  | .lazyModifiable n => "lazy constraint " ++ quoted n ++ " cannot be modifiable"
  | .repeatedMember n => "SOS1 " ++ quoted n ++ " contains a variable twice"
  | .negativeMember n m => "SOS1 " ++ quoted n ++ " member " ++ quoted m ++ " has a negative lower bound"
  | .selfImplication v => s!"x{v} cannot imply a bound on itself"
  | .implicationBound b => "implication bound " ++ text b ++ " is not finite"
  | .repeatedInClique => "clique contains a variable twice"
  | .notCustomHandler h => s!"h{h} is not a custom handler"
  | .noSuchConstraint n i => "handler " ++ quoted n ++ s!" has no constraint {i}"
  | .settings flaw => flaw.text

/-- The wording of a refused model. -/
def ModelFlaw.message {K : Type} (text : K → String) (flaw : ModelFlaw K) : String :=
  "Invalid problem: " ++ flaw.text text

def PluginFault.text {K : Type} (text : K → String) : PluginFault K → String
  | .noConstraint i => s!"no constraint {i}"
  | .notModifiable n => "constraint " ++ quoted n ++ " is not modifiable"
  | .noColumnGeneration => "column generation is not supported"
  | .scoreCount g e => s!"returned {g} scores for {e} candidates"
  | .solutionLength g e => s!"solution has {g} values for {e} variables"
  | .undefinedBound => "lower bound is NaN"
  | .malformedCut n => "cut " ++ quoted n ++ " is malformed"
  | .badColumnEntry n a c => "column " ++ quoted n ++ " has invalid coefficient " ++ text a ++ s!" in c{c}"
  | .closedConstraint n c => "column " ++ quoted n ++ s!" enters c{c}, which is not modifiable"
  | .refusedColumn flaw => flaw.message text
  | .other t => t

def InternalFault.text : InternalFault → String
  | .noLinearConstraint i => s!"no linear constraint {i}"
  | .unknownHandler h => s!"unknown constraint handler h{h}"
  | .columnOrder v e => s!"column x{v} added out of order (expected x{e})"
  | .unknownColumn row v => "row " ++ row.text ++ s!" references unknown column x{v}"
  | .boundLengths l u n => s!"bound vectors of length {l}/{u} for {n} columns"
  | .rootTwice => "root created twice"
  | .noNode id => s!"node #{id} is not in the tree"
  | .fewChildren p n => s!"branching at node #{p} produced {n} children"
  | .cutNotPooled id => s!"cut {id} is not in the pool"
  | .narrowDomain v => s!"domain of x{v} is too narrow to be split"
  | .columnMismatch v => s!"domain store and problem disagree on column x{v}"
  | .other t => t

def Error.message {K : Type} (text : K → String) : Error K → String
  | .invalid flaw => flaw.message text
  | .relaxation cause => "Relaxation failed: " ++ cause.message text
  | .plugin n fault => "Plugin " ++ quoted n ++ " failed: " ++ fault.text text
  | .internal fault => "Internal error: " ++ fault.text
  | .outOfSteps => "Resource exhausted: step limit"

end BranchAndCut

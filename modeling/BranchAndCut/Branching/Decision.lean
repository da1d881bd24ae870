import BranchAndCut.Branching.Pseudocost
import BranchAndCut.Constraint.Sos1

/-! How a node is split. A fractional variable is split at its value; without
one, a family of constraints may offer a split, or the domain of an integer
variable is halved. Candidates are looked at by increasing variable and only a
strictly better score replaces the choice, so that ties go to the least variable. -/

namespace BranchAndCut

/-- A fractional variable of the relaxation solution. -/
structure Candidate (K : Type) where
  var : VarId
  value : K
  frac : K

/-- A child to be created. -/
structure ChildSpec (K : Type) where
  /-- Changes relative to the parent. -/
  changes : List (BoundChange K)
  /-- The objective expected of the best solution below. -/
  estimate : K
  dir : Option Direction := none

structure BranchingDecision (K : Type) where
  /-- The variable that was split at its fractional value, if any. -/
  var : Option (Candidate K) := none
  children : List (ChildSpec K)

/-- A scoring rule supplied by the user: one score per candidate, in order. -/
structure ScoringRule (K σ : Type) where
  name : String
  score : List (Candidate K) → Pseudocosts K → σ → List K × σ

/-- The built-in rule, its memory and a rule that may replace it. -/
structure Brancher (K σ : Type) where
  rule : BranchingRule
  custom : Option (ScoringRule K σ) := none
  pseudocosts : Pseudocosts K
  intTol : K

namespace Brancher

variable {K σ : Type} [Scalar K]

def new (rule : BranchingRule) (numVars : Nat) (intTol : K) : Brancher K σ where
  rule := rule
  pseudocosts := Pseudocosts.new numVars
  intTol := intTol

/-- The candidate of a variable, if its value is fractional. -/
def candidate? (intTol : K) (x : Array K) (v : VarId) : Option (Candidate K) :=
  let value := x.getD v 0
  let frac := Scalar.frac value
  if intTol < frac && frac < 1 - intTol then some { var := v, value, frac } else none

/-- The fractional ones of the variables, in increasing order. -/
def candidates (b : Brancher K σ) (vars : List VarId) (x : Array K) : List (Candidate K) :=
  (vars.filterMap (candidate? b.intTol x)).mergeSort fun p q => decide (p.var ≤ q.var)

/-- Whether candidates are scored by pseudocosts by now. -/
def usesPseudocosts (rule : BranchingRule) (nodesProcessed : Nat) : Bool :=
  match rule with
  | .mostFractional => false
  | .pseudocost => true
  | .hybrid switchAfter => decide (switchAfter ≤ nodesProcessed)

/-- The score of a candidate under the built-in rule. -/
def builtinScore (b : Brancher K σ) (nodesProcessed : Nat) (c : Candidate K) : K :=
  if usesPseudocosts b.rule nodesProcessed then b.pseudocosts.score c.var c.frac
  else Scalar.min c.frac (1 - c.frac)

/-- The scores of the candidates. -/
def scores (b : Brancher K σ) (cs : List (Candidate K)) (nodesProcessed : Nat) :
    EStateM (Error K) σ (List K) := do
  match b.custom with
  | none => pure (cs.map (b.builtinScore nodesProcessed))
  | some rule =>
    let scores ← modifyGet (rule.score cs b.pseudocosts)
    if scores.length ≠ cs.length || scores.any Scalar.isNaN then
      throw (.plugin rule.name (.scoreCount scores.length cs.length))
    pure scores

/-- The first candidate of the greatest score. -/
def best? : List (Candidate K × K) → Option (Candidate K)
  | [] => none
  | first :: rest => some (rest.foldl (fun best next => if best.2 < next.2 then next else best) first).1

/-- The children `x ≤ ⌊v⌋` and `x ≥ ⌈v⌉`. -/
def dichotomy (b : Brancher K σ) (nodeBound : K) (c : Candidate K) (d : Domains K) :
    BranchingDecision K where
  var := some c
  children := [
    { changes := [BoundChange.down c.var (d.ub c.var) c.value]
      estimate := nodeBound + b.pseudocosts.get c.var .down * c.frac
      dir := some .down },
    { changes := [BoundChange.up c.var (d.lb c.var) c.value]
      estimate := nodeBound + b.pseudocosts.get c.var .up * (1 - c.frac)
      dir := some .up }]

/-- Splits a fractional variable, if there is one. -/
def select (b : Brancher K σ) (nodeBound : K) (vars : List VarId) (x : Array K) (d : Domains K)
    (nodesProcessed : Nat) : EStateM (Error K) σ (Option (BranchingDecision K)) := do
  let cs := b.candidates vars x
  if cs.isEmpty then pure none
  else
    let scores ← b.scores cs nodesProcessed
    pure ((best? (cs.zip scores)).map fun c => b.dichotomy nodeBound c d)

/-- The best of the splits offered by families of constraints: the first of the
greatest score with at least two children. -/
def ofOptions? (nodeBound : K) (options : List (ConsBranching K)) : Option (BranchingDecision K) :=
  let best := options.foldl (fun best o =>
    if o.children.length < 2 then best
    else
      match best with
      | none => some o
      | some b => if b.score < o.score then some o else best) (none : Option (ConsBranching K))
  best.map fun b => { children := b.children.map fun changes => { changes, estimate := nodeBound } }

/-- A value moved into a range. -/
def clamp (x lo hi : K) : K := if x < lo then lo else if hi < x then hi else x

/-- Where the domain of a variable is split: at the relaxation value if there is
one, else in the middle, or at a bound if only that is finite. -/
def splitGuess (v : VarId) (x : Option (Array K)) (lb ub : K) : K :=
  match x with
  | some x => x.getD v 0
  | none =>
    if Scalar.isFinite lb && Scalar.isFinite ub then 0.5 * (lb + ub)
    else if Scalar.isFinite lb then lb
    else if Scalar.isFinite ub then ub
    else 0

/-- Splits the domain of the first integer variable that is not fixed into
`[lb, s]` and `[s + 1, ub]`. A domain narrower than 1 has no such split. -/
def halve (b : Brancher K σ) (nodeBound : K) (vars : List VarId) (x : Option (Array K))
    (d : Domains K) : Except (Error K) (Option (BranchingDecision K)) :=
  let sorted := vars.mergeSort fun v w => decide (v ≤ w)
  match sorted.find? fun v => decide (1 - b.intTol ≤ d.ub v - d.lb v) with
  | none => pure none
  | some v =>
    let lb := d.lb v
    let ub := d.ub v
    if lb ≤ ub - 1 then
      let s := Scalar.floor (clamp (splitGuess v x lb ub) lb (ub - 1))
      pure <| some { children := [
        { changes := [BoundChange.upper v ub s], estimate := nodeBound },
        { changes := [BoundChange.lower v lb (s + 1)], estimate := nodeBound }] }
    else throw (.internal (.narrowDomain v))

/-- Records the gain of the objective observed in a child. -/
def observe (b : Brancher K σ) (c : Candidate K) (dir : Direction) (gain : K) : Brancher K σ :=
  let distance := match dir with
    | .down => c.frac
    | .up => 1 - c.frac
  { b with pseudocosts := b.pseudocosts.update c.var dir gain distance }

end Brancher

end BranchAndCut

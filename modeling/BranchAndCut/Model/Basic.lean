import BranchAndCut.Constraint.Handlers
import BranchAndCut.Constraint.Registry
import BranchAndCut.Model.Problem

/-! Models: variables, constraints of all families, and implications. Building
operations act on the model as state; a failing one leaves the model as far as
it got. -/

namespace BranchAndCut

/-- How a linear constraint takes part in the relaxation. -/
inductive LinearKind where
  | plain
  /-- Enforced only once a solution violates it. -/
  | onDemand
  /-- Open to priced columns. -/
  | modifiable
deriving DecidableEq, Repr

structure Model (K σ : Type) where
  problem : Problem K
  handlers : Handlers K σ := {}
  registry : Registry := Registry.new 2
  implications : ImplicationGraph K := {}
  /-- The names of constraints, the newest first. -/
  consNames : List (String × ConsId) := []

/-- Operations that build a model. -/
abbrev ModelM (K σ : Type) := EStateM (Error K) (Model K σ)

namespace Model

variable {K σ : Type} [Scalar K]

def new (name : String) : Model K σ where
  problem := Problem.new name

def numVars (m : Model K σ) : Nat := m.problem.numVars

def numConstraints (m : Model K σ) : Nat := m.registry.size

def findCons? (m : Model K σ) (name : String) : Option ConsId := m.consNames.lookup name

/-- A step that may be refused. -/
def attempt {α : Type} : Except (Error K) α → ModelM K σ α
  | .ok a => pure a
  | .error e => throw e

/-- A step on the variables that may be refused. -/
def attemptProblem {α : Type} : Except (ModelFlaw K) α → ModelM K σ α
  | .ok a => pure a
  | .error flaw => throw (.invalid flaw)

/-- Adds a variable. -/
def addVar (name : String) (t : VarType) (lower upper obj : K) : ModelM K σ VarId := do
  let (id, problem) ← attemptProblem ((← get).problem.addVar name t lower upper obj)
  modify fun m => { m with problem }
  pure id

/-- Refuses unknown variables. -/
def checkVar (v : VarId) : ModelM K σ Unit := do
  if (← get).numVars ≤ v then throw (.invalid (.unknownVariable v))

/-- Refuses variables that are not integral within [0, 1]. -/
def checkBinary (v : VarId) : ModelM K σ Unit := do
  checkVar v
  let x := (← get).problem.var v
  if !x.type.isIntegral || decide (x.lower < 0) || decide (1 < x.upper) then
    throw (.invalid (.notBinary x.name))

/-- Refuses a name that a constraint has already. -/
def checkConsName (name : String) : ModelM K σ Unit := do
  if ((← get).findCons? name).isSome then throw (.invalid (.duplicateConstraint name))

/-- Registers a constraint of a family in the whole tree. -/
def register (h : HandlerId) (index : Nat) : ModelM K σ ConsId := do
  let (id, registry) ← attempt ((← get).registry.add h index .everywhere)
  modify fun m => { m with registry }
  pure id

/-- Whether the sides of a row make no sense. -/
def badSides (lhs rhs : K) : Bool :=
  Scalar.isNaN lhs || Scalar.isNaN rhs || decide (rhs < lhs) || lhs == Scalar.inf || rhs == Scalar.negInf

/-- Adds the constraint `lhs ≤ ∑ aⱼ xⱼ ≤ rhs`. -/
def addLinear (name : String) (coefs : List (VarId × K)) (lhs rhs : K) (kind : LinearKind) :
    ModelM K σ ConsId := do
  checkConsName name
  coefs.forM fun (v, a) => do
    checkVar v
    if !Scalar.isFinite a then throw (.invalid (.badCoefficient name a v))
  if badSides lhs rhs then throw (.invalid (.badSides name lhs rhs))
  let m ← get
  let (index, linear) := m.handlers.linear.addRow name (Row.of coefs lhs rhs) (kind = .onDemand)
  set { m with handlers := { m.handlers with linear } }
  if kind = .modifiable then
    let linear ← attempt (linear.setModifiable index)
    modify fun m => { m with handlers := { m.handlers with linear } }
  let id ← register 0 index
  modify fun m => { m with consNames := (name, id) :: m.consNames }
  pure id

/-- Adds a special ordered set of type 1 over nonnegative variables. -/
def addSos1 (name : String) (vars : List VarId) : ModelM K σ ConsId := do
  checkConsName name
  vars.forM fun v => do
    checkVar v
    let x := (← get).problem.var v
    if x.lower < 0 then throw (.invalid (.negativeMember name x.name))
  let (index, sos1) ← attempt ((← get).handlers.sos1.addSet name vars)
  modify fun m => { m with handlers := { m.handlers with sos1 } }
  let id ← register 1 index
  modify fun m => { m with consNames := (name, id) :: m.consNames }
  pure id

/-- Declares that at most one of the binary variables is 1: a clique for the
implications, and the row `∑ x ≤ 1`. -/
def addClique (name : String) (vars : List VarId) : ModelM K σ ConsId := do
  vars.forM checkBinary
  let id ← addLinear name (vars.map fun v => (v, 1)) Scalar.negInf 1 .plain
  let (_, implications) ← attempt ((← get).implications.addClique vars)
  modify fun m => { m with implications }
  pure id

/-- Declares that fixing a binary variable implies a bound. Implications speed up
propagation; solutions are not checked against them. -/
def addImplication (v : VarId) (value : Bool) (implied : Implication K) : ModelM K σ Unit := do
  checkBinary v
  checkVar implied.var
  if !Scalar.isFinite implied.value then throw (.invalid (.implicationBound implied.value))
  let implications ← attempt ((← get).implications.addImplication v value implied)
  modify fun m => { m with implications }

/-- Includes a custom family of constraints. -/
def includeHandler (handler : CustomHandler K σ) : ModelM K σ HandlerId := modifyGet fun m =>
  let (id, registry) := m.registry.addHandler
  (id, { m with
    registry
    handlers := { m.handlers with custom := m.handlers.custom.push handler } })

/-- Registers a constraint of a custom family, whose world is given. -/
def addConstraint (w : σ) (h : HandlerId) (index : Nat) : ModelM K σ ConsId := do
  match (← get).handlers.which h with
  | .custom handler =>
    if handler.numConstraints w ≤ index then throw (.invalid (.noSuchConstraint handler.name index))
    register h index
  | _ => throw (.invalid (.notCustomHandler h))

/-- Changes the type of a variable. -/
def changeType (v : VarId) (t : VarType) : ModelM K σ Unit := do
  checkVar v
  let problem ← attemptProblem ((← get).problem.changeType v t)
  modify fun m => { m with problem }

/-- A line that describes the model, given the quoted name. -/
def describe (m : Model K σ) (quotedName : String) : String :=
  "Model \x7b name: " ++ quotedName ++ s!", vars: {m.numVars}, constraints: {m.numConstraints}" ++
    s!", custom_handlers: {m.handlers.custom.size}" ++ " \x7d"

end Model

end BranchAndCut

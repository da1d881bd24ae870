import BranchAndCut.Constraint.Linear
import BranchAndCut.Constraint.Sos1

/-! Families of constraints as the search sees them. The linear constraints are
family 0 and the special ordered sets family 1; custom families follow. A family
refers to its constraints by their index within it.

Plugins act on a world `σ` of their own, which the solver passes through and
never looks into. -/

namespace BranchAndCut

/-- A custom family of constraints. Callbacks get the indices of the active
constraints and answer alike for the same world and arguments. -/
structure CustomHandler (K σ : Type) where
  name : String
  /-- Families of higher priority propagate first. -/
  priority : Int := 0
  /-- The number of constraints, deleted ones included. -/
  numConstraints : σ → Nat
  /-- Tightens domains. -/
  propagate : List Nat → ImplicationGraph K → Reason → EStateM (Error K) (Deduction K × σ) Verdict
  /-- Cuts violated by the relaxation solution. -/
  separate : List Nat → Fractional K → EStateM (Error K) σ (List (Cut K)) := fun _ _ => pure []
  /-- The violated ones among the given constraints, up to a tolerance. -/
  check : σ → List Nat → Array K → K → List Nat
  locks : σ → Nat → List Lock
  /-- The rows that a constraint puts into the relaxation. -/
  initialRows : σ → Nat → List (Row K) := fun _ _ => []
  /-- Branchings for a solution that is integral but violates constraints. -/
  branchings : σ → List Nat → Array K → Domains K → List (ConsBranching K) := fun _ _ _ _ => []
  /-- Whether priced columns may enter a constraint. -/
  isModifiable : σ → Nat → Bool := fun _ _ => false
  /-- Adds the coefficient of a priced column. -/
  addCoefficient : Nat → VarId → K → EStateM (Error K) σ Unit :=
    fun _ _ _ => throw (.plugin name .noColumnGeneration)
  /-- Releases a deleted constraint. -/
  delete : Nat → σ → σ := fun _ w => w

/-- All families of a model. -/
structure Handlers (K σ : Type) where
  linear : LinearFamily K := {}
  sos1 : Sos1Family := {}
  custom : Array (CustomHandler K σ) := #[]

namespace Handlers

variable {K σ : Type} [Scalar K]

/-- A family of the list. -/
inductive Which (K σ : Type) where
  | linear
  | sos1
  | custom (handler : CustomHandler K σ)
  | unknown

/-- The family with some number. -/
def which (hs : Handlers K σ) : HandlerId → Which K σ
  | 0 => .linear
  | 1 => .sos1
  | h + 2 =>
    match hs.custom[h]? with
    | some handler => .custom handler
    | none => .unknown

def count (hs : Handlers K σ) : Nat := hs.custom.size + 2

def name (hs : Handlers K σ) (h : HandlerId) : String :=
  match hs.which h with
  | .linear => "linear"
  | .sos1 => "sos1"
  | .custom handler => handler.name
  | .unknown => ""

/-- The number of constraints of a family, deleted ones included. -/
def numConstraints (hs : Handlers K σ) (w : σ) (h : HandlerId) : Nat :=
  match hs.which h with
  | .linear => hs.linear.conss.size
  | .sos1 => hs.sos1.conss.size
  | .custom handler => handler.numConstraints w
  | .unknown => 0

def priority (hs : Handlers K σ) (h : HandlerId) : Int :=
  match hs.which h with
  | .linear => 100
  | .sos1 => 50
  | .custom handler => handler.priority
  | .unknown => 0

/-- Propagates the given constraints of a family. -/
def propagate (hs : Handlers K σ) (h : HandlerId) (conss : List Nat) (g : ImplicationGraph K)
    (reason : Reason) : EStateM (Error K) (Deduction K × σ) Verdict :=
  match hs.which h with
  | .linear => modifyGet fun (d, w) =>
    let (verdict, d) := hs.linear.propagate g reason d conss
    (verdict, d, w)
  | .sos1 => modifyGet fun (d, w) =>
    let (verdict, d) := hs.sos1.propagate g reason d conss
    (verdict, d, w)
  | .custom handler => handler.propagate conss g reason
  | .unknown => pure .nothing

/-- The cuts that a family finds. -/
def separate (hs : Handlers K σ) (h : HandlerId) (conss : List Nat) (p : Fractional K) :
    EStateM (Error K) σ (List (Cut K)) :=
  match hs.which h with
  | .linear => pure (hs.linear.separate conss p)
  | .custom handler => handler.separate conss p
  | _ => pure []

/-- The violated constraints among the given ones of a family. -/
def check (hs : Handlers K σ) (w : σ) (h : HandlerId) (conss : List Nat) (x : Array K) (tol : K) :
    List Nat :=
  match hs.which h with
  | .linear => hs.linear.check conss x tol
  | .sos1 => hs.sos1.check conss x tol
  | .custom handler => handler.check w conss x tol
  | .unknown => []

def locks (hs : Handlers K σ) (w : σ) (h : HandlerId) (c : Nat) : List Lock :=
  match hs.which h with
  | .linear => hs.linear.locks c
  | .sos1 => hs.sos1.locks c
  | .custom handler => handler.locks w c
  | .unknown => []

def initialRows (hs : Handlers K σ) (w : σ) (h : HandlerId) (c : Nat) : List (Row K) :=
  match hs.which h with
  | .linear => hs.linear.initialRows c
  | .custom handler => handler.initialRows w c
  | _ => []

def branchings (hs : Handlers K σ) (w : σ) (h : HandlerId) (conss : List Nat) (x : Array K)
    (d : Domains K) : List (ConsBranching K) :=
  match hs.which h with
  | .sos1 => hs.sos1.branchings conss x d
  | .custom handler => handler.branchings w conss x d
  | _ => []

def isModifiable (hs : Handlers K σ) (w : σ) (h : HandlerId) (c : Nat) : Bool :=
  match hs.which h with
  | .linear => hs.linear.isModifiable c
  | .custom handler => handler.isModifiable w c
  | _ => false

/-- Adds the coefficient of a priced column to a constraint of a family. -/
def addCoefficient (h : HandlerId) (c : Nat) (v : VarId) (a : K) :
    EStateM (Error K) (Handlers K σ × σ) Unit := do
  let (hs, w) ← get
  match hs.which h with
  | .linear =>
    match hs.linear.addCoefficient c v a with
    | .ok linear => set ({ hs with linear }, w)
    | .error e => throw e
  | .sos1 => throw (.plugin "sos1" .noColumnGeneration)
  | .custom handler =>
    match handler.addCoefficient c v a w with
    | .ok _ w => set (hs, w)
    | .error e w => do
      set (hs, w)
      throw e
  | .unknown => throw (.internal (.unknownHandler h))

/-- Deletes a constraint of a family. -/
def delete (hs : Handlers K σ) (w : σ) (h : HandlerId) (c : Nat) : Handlers K σ × σ :=
  match hs.which h with
  | .linear => ({ hs with linear := hs.linear.delete c }, w)
  | .custom handler => (hs, handler.delete c w)
  | _ => (hs, w)

end Handlers

end BranchAndCut

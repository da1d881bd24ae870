import BranchAndCut.Error

/-! Variables and objective of a model. The active variables are laid out in one
array, in groups by type: binary, integer, implicitly integer, continuous. Adding a
variable to a group moves the first member of each later group to its end;
removing one puts the last member of its group in its place and moves the last
member of each later group to its front. So the array changes in a bounded number
of places, and a table of positions follows it. -/

namespace BranchAndCut

inductive VarType where
  /-- Integer with bounds within [0, 1]. -/
  | binary
  | integer
  /-- Continuous, but integral in every optimal solution. -/
  | implicit
  | continuous
deriving DecidableEq, Repr, Inhabited

namespace VarType

/-- All types, in the order of their groups. -/
def all : List VarType := [.binary, .integer, .implicit, .continuous]

/-- The place of a type among the groups. -/
def group : VarType → Nat
  | binary => 0
  | integer => 1
  | implicit => 2
  | continuous => 3

theorem group_lt (t : VarType) : t.group < 4 := by cases t <;> decide

/-- Whether bounds of this type are rounded to integers. -/
def isIntegral (t : VarType) : Bool := t != .continuous

/-- Whether the search branches on variables of this type. -/
def isBranchable (t : VarType) : Bool := t == .binary || t == .integer

end VarType

structure Variable (K : Type) where
  name : String
  type : VarType
  /-- The objective coefficient in the user's sense. -/
  obj : K
  lower : K
  upper : K

/-- The active variables, and where they are. -/
structure Groups where
  /-- The active variables, group after group. -/
  order : Array VarId := #[]
  /-- The sizes of the groups. -/
  counts : Vector Nat 4 := .replicate 4 0
  /-- The place of each variable in the order, if it is active. -/
  positions : Array (Option Nat) := #[]
deriving Repr, DecidableEq

namespace Groups

/-- The size of a group. -/
def count (g : Groups) (t : VarType) : Nat := g.counts.get ⟨t.group, t.group_lt⟩

/-- The types whose groups come before that of `t`. -/
def earlier (t : VarType) : List VarType := VarType.all.filter fun u => decide (u.group < t.group)

/-- The types whose groups come after that of `t`. -/
def later (t : VarType) : List VarType := VarType.all.filter fun u => decide (t.group < u.group)

/-- Where a group starts. -/
def start (g : Groups) (t : VarType) : Nat := ((earlier t).map g.count).foldr (· + ·) 0

/-- The members of a group. -/
def get (g : Groups) (t : VarType) : Array VarId := g.order.extract (g.start t) (g.start t + g.count t)

/-- Where an active variable is. -/
def position? (g : Groups) (v : VarId) : Option Nat := g.positions.getD v none

/-- Makes room for a new variable, which is not active yet. -/
def extend (g : Groups) : Groups := { g with positions := g.positions.push none }

/-- Changes the size of a group. -/
def resize (g : Groups) (t : VarType) (n : Nat) : Groups := { g with counts := g.counts.set t.group n t.group_lt }

/-- Puts a variable at a place. -/
def place (g : Groups) (pos : Nat) (v : VarId) : Groups :=
  { g with order := g.order.setIfInBounds pos v, positions := g.positions.setIfInBounds v (some pos) }

/-- Copies the last member of a group into the place of another one. -/
def fill (g : Groups) (pos last : Nat) : Groups :=
  if last = pos then g else g.place pos (g.order.getD last 0)

/-- Moves the first member of a group into the hole after its last one. The new hole
is in front of the group. -/
def moveFirst (u : VarType) (s : Groups × Nat) : Groups × Nat :=
  let (g, hole) := s
  (if 0 < g.count u then g.place hole (g.order.getD (g.start u) 0) else g, g.start u)

/-- Moves the last member of a group into the hole in front of its first one, and leaves
a hole in its place. -/
def moveLast (s : Groups × Nat) (u : VarType) : Groups × Nat :=
  let (g, hole) := s
  let last := g.start u + g.count u - 1
  if g.count u = 0 then (g, hole) else (g.place hole (g.order.getD last 0), last)

/-- Adds a variable at the end of its group. -/
def insert (g : Groups) (t : VarType) (v : VarId) : Groups :=
  let (g, hole) := (later t).foldr moveFirst ({ g with order := g.order.push v }, g.order.size)
  (g.place hole v).resize t (g.count t + 1)

/-- Removes a variable from its group. -/
def remove (g : Groups) (t : VarType) (v : VarId) : Groups :=
  match g.position? v with
  | none => g
  | some pos =>
    let last := g.start t + g.count t - 1
    let g := ((later t).foldl moveLast (g.fill pos last, last)).1
    { g.resize t (g.count t - 1) with
      order := g.order.pop
      positions := g.positions.setIfInBounds v none }

end Groups

structure Problem (K : Type) where
  name : String
  vars : Array (Variable K) := #[]
  /-- The names of the variables, the newest first. -/
  names : List (String × VarId) := []
  groups : Groups := {}
  maximize : Bool := false
  /-- Added to the objective in the user's sense. -/
  offset : K
  /-- Only solutions strictly better than this are accepted, in the user's sense. -/
  objLimit : Option K := none

namespace Problem

variable {K : Type} [Scalar K]

def new (name : String) : Problem K where
  name := name
  offset := 0

def numVars (p : Problem K) : Nat := p.vars.size

/-- The variable with a number; its fields are void for unknown numbers. -/
def var (p : Problem K) (v : VarId) : Variable K :=
  p.vars.getD v { name := "", type := .continuous, obj := 0, lower := 0, upper := 0 }

/-- The variable of a name. -/
def findVar? (p : Problem K) (name : String) : Option VarId := p.names.lookup name

/-- Bounds rounded inwards for integral types, and cut to [0, 1] for binary ones. -/
def normalize (t : VarType) (lower upper : K) : K × K :=
  match t with
  | .binary => (Scalar.max (Scalar.ceil lower) 0, Scalar.min (Scalar.floor upper) 1)
  | .integer => (Scalar.ceil lower, Scalar.floor upper)
  | .implicit => (Scalar.ceil lower, Scalar.floor upper)
  | .continuous => (lower, upper)

/-- Whether no domain can be meant by the bounds: one is undefined, or is
infinite towards the inside. -/
def badBounds (lower upper : K) : Bool :=
  Scalar.isNaN lower || Scalar.isNaN upper || lower == Scalar.inf || upper == Scalar.negInf

/-- Adds a variable. An empty domain is accepted here; a solve detects it. -/
def addVar (p : Problem K) (name : String) (t : VarType) (lower upper obj : K) :
    Except (ModelFlaw K) (VarId × Problem K) := do
  if (p.findVar? name).isSome then throw (.duplicateVariable name)
  if badBounds lower upper then throw (.variableBounds name lower upper)
  if !Scalar.isFinite obj then throw (.objectiveNotFinite name obj)
  let (lower, upper) := normalize t lower upper
  let id := p.numVars
  return (id, { p with
    vars := p.vars.push { name, type := t, obj, lower, upper }
    names := (name, id) :: p.names
    groups := p.groups.extend.insert t id })

/-- Whether a variable is in its group. -/
def isActive (p : Problem K) (v : VarId) : Bool := (p.groups.position? v).isSome

/-- Changes the type of a variable, and its bounds with it. A variable becomes
binary only if its bounds round to values in [0, 1]. -/
def changeType (p : Problem K) (v : VarId) (t : VarType) : Except (ModelFlaw K) (Problem K) := do
  let x := p.var v
  if x.type = t then return p
  if t = .binary && (decide (x.lower < -0.5) || decide (1.5 < x.upper)) then
    throw (.cannotBecomeBinary x.name x.lower x.upper)
  let (lower, upper) := normalize t x.lower x.upper
  return { p with
    vars := p.vars.modify v fun x => { x with type := t, lower, upper }
    groups := if p.isActive v then (p.groups.remove x.type v).insert t v else p.groups }

/-- Takes a fixed variable out of its group. -/
def compact (p : Problem K) (v : VarId) : Problem K :=
  if p.isActive v then { p with groups := p.groups.remove (p.var v).type v } else p

/-- The active variables in the order of their groups. -/
def order (p : Problem K) : List VarId := p.groups.order.toList

/-- The active binary and integer variables. -/
def branchable (p : Problem K) : List VarId :=
  p.order.take (p.groups.count .binary + p.groups.count .integer)

/-- Whether the values of a variable have to be integral. -/
def isIntegral (p : Problem K) (v : VarId) : Bool := (p.var v).type.isIntegral

/-- The sign that turns the user's objective into one to be minimised. -/
def sign (p : Problem K) : K := if p.maximize then -1 else 1

/-- The cost of a variable in the sense of minimisation. -/
def cost (p : Problem K) (v : VarId) : K := p.sign * (p.var v).obj

/-- The costs of all variables. -/
def costs (p : Problem K) : List K := p.vars.toList.map fun x => p.sign * x.obj

/-- The value of a point in the sense of minimisation, without offset. -/
@[specialize] def value (p : Problem K) (x : Array K) : K :=
  Scalar.sum (p.vars.toList.zipWith (fun v xi => p.sign * v.obj * xi) x.toList)

/-- A value in the user's sense. -/
def external (p : Problem K) (value : K) : K := p.sign * value + p.offset

/-- A value in the sense of minimisation. -/
def internal (p : Problem K) (value : K) : K := p.sign * (value - p.offset)

end Problem

end BranchAndCut

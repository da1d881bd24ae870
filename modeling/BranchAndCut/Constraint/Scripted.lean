import BranchAndCut.Constraint.Handlers

/-! Families of constraints given as data. A scripted constraint says which
bounds it tightens, which cut and which branchings it offers, and when it is
violated; nothing checks that these belong together. Constraints `x ≠ y` are a
family of their own. -/

namespace BranchAndCut

/-- A cut that a scripted constraint offers. -/
structure ScriptedCut (K : Type) where
  cut : Cut K
  /-- Offered even where the solution satisfies it. -/
  always : Bool := false

/-- A report that ends a propagation at once. -/
inductive ScriptedReport where
  | cutoff
  | fault
deriving DecidableEq, Repr

structure ScriptedConstraint (K : Type) where
  locks : List Lock := []
  rows : List (Row K) := []
  cut : Option (ScriptedCut K) := none
  tighten : List (VarId × BoundKind × K) := []
  /-- Nothing is tightened while this variable's lower bound is below the value. -/
  trigger : Option (VarId × K) := none
  /-- Goes on after a tightening that empties a domain. -/
  sloppy : Bool := false
  report : Option ScriptedReport := none
  /-- Violated where this row is. -/
  row : Option (Row K) := none
  /-- Violated where the variables take these values. -/
  forbidden : Option (List (VarId × K)) := none
  branch : List (List (BoundChange K)) := []
  score : K
  modifiable : Bool := false

structure ScriptedFamily (K : Type) where
  name : String := "scripted"
  priority : Int := 0
  conss : Array (ScriptedConstraint K) := #[]

variable {K σ : Type} [Scalar K]

namespace ScriptedConstraint

def violated (c : ScriptedConstraint K) (x : Array K) (tol : K) : Bool :=
  (c.row.any fun r => decide (tol < r.violation x)) ||
  c.forbidden.any fun point => point.all fun (v, p) => decide (Scalar.abs (x.getD v 0 - p) ≤ tol)

/-- Whether the lower bound that the constraint waits for is not reached. -/
def waits (c : ScriptedConstraint K) (d : Deduction K) : Bool :=
  c.trigger.any fun (v, value) => decide (d.lb v < value)

/-- Applies tightenings in order; whether none of them stopped the propagation. -/
def apply (g : ImplicationGraph K) (reason : Reason) (sloppy : Bool) (d : Deduction K) :
    List (VarId × BoundKind × K) → Bool × Deduction K
  | [] => (true, d)
  | (v, kind, value) :: rest =>
    match Deduction.tighten g reason d v kind value with
    | (.infeasible, d) => if sloppy then apply g reason sloppy d rest else (false, d)
    | (_, d) => apply g reason sloppy d rest

end ScriptedConstraint

namespace ScriptedFamily

/-- Propagates constraints in order; whether none of them reported a cutoff. -/
def propagate (f : ScriptedFamily K) (g : ImplicationGraph K) (reason : Reason) :
    List Nat → EStateM (Error K) (Deduction K × σ) Bool
  | [] => pure true
  | i :: rest => do
    match f.conss[i]? with
    | none => propagate f g reason rest
    | some c =>
      match c.report with
      | some .cutoff => pure false
      | some .fault => throw (.plugin f.name (.other "scripted failure"))
      | none =>
        let (d, w) ← get
        if c.waits d then propagate f g reason rest
        else
          let (ok, d) := ScriptedConstraint.apply g reason c.sloppy d c.tighten
          set (d, w)
          if ok then propagate f g reason rest else pure false

/-- The cuts offered at a solution. -/
def cuts (f : ScriptedFamily K) (conss : List Nat) (p : Fractional K) : List (Cut K) :=
  conss.filterMap fun i => do
    let s ← (← f.conss[i]?).cut
    if s.always || decide (p.feasTol < s.cut.row.violation p.x) then some s.cut else none

/-- The branchings offered where constraints are violated. -/
def branchings (f : ScriptedFamily K) (conss : List Nat) (x : Array K) : List (ConsBranching K) :=
  conss.filterMap fun i => do
    let c ← f.conss[i]?
    if !c.branch.isEmpty && c.violated x 1e-6 then some { score := c.score, children := c.branch } else none

/-- The family as the search sees it. -/
def handler (f : ScriptedFamily K) : CustomHandler K σ where
  name := f.name
  priority := f.priority
  numConstraints _ := f.conss.size
  propagate conss g reason := do
    let (before, _) ← get
    let ok ← f.propagate g reason conss
    let (after, _) ← get
    pure (if ok then before.verdict after else .cutoff)
  separate conss p := pure (f.cuts conss p)
  check _ conss x tol := conss.filter fun i => f.conss[i]?.any (·.violated x tol)
  locks _ i := (f.conss[i]?.map (·.locks)).getD []
  initialRows _ i := (f.conss[i]?.map (·.rows)).getD []
  branchings _ conss x _ := f.branchings conss x
  isModifiable _ i := f.conss[i]?.any (·.modifiable)

end ScriptedFamily

/-- Constraints `x ≠ y` on pairs of integer variables. -/
structure NotEqualFamily where
  pairs : Array (VarId × VarId) := #[]

namespace NotEqualFamily

def pair (f : NotEqualFamily) (i : Nat) : VarId × VarId := f.pairs.getD i (0, 0)

/-- Moves a bound of `y` off the value of a fixed `x`; whether there was one to move. -/
def exclude (g : ImplicationGraph K) (reason : Reason) (x y : VarId) (d : Deduction K) :
    Bool × Deduction K :=
  if d.lb x != d.ub x then (false, d)
  else
    let v := d.lb x
    if d.lb y == v then (true, (Deduction.tighten g reason d y .lower (v + 1)).2)
    else if d.ub y == v then (true, (Deduction.tighten g reason d y .upper (v - 1)).2)
    else (false, d)

def propagate (f : NotEqualFamily) (g : ImplicationGraph K) (reason : Reason) (reduced : Bool)
    (d : Deduction K) : List Nat → Verdict × Deduction K
  | [] => (if reduced then .reduced else .nothing, d)
  | i :: rest =>
    let (x, y) := f.pair i
    let (a, d) := exclude g reason x y d
    let (b, d) := exclude g reason y x d
    if d.infeasible then (.cutoff, d) else propagate f g reason (reduced || a || b) d rest

/-- How far the two variables are apart. -/
def distance (f : NotEqualFamily) (x : Array K) (i : Nat) : K :=
  Scalar.abs (x.getD (f.pair i).1 0 - x.getD (f.pair i).2 0)

/-- The first variable below, above or at its value, as far as its domain allows. -/
def branching? (f : NotEqualFamily) (x : Array K) (d : Domains K) (i : Nat) : Option (ConsBranching K) :=
  if (1e-6 : K) < f.distance x i then none
  else
    let a := (f.pair i).1
    let v := Scalar.round (x.getD a 0)
    let lb := d.lb a
    let ub := d.ub a
    some {
      score := 1
      children :=
        (if lb ≤ v - 1 then [[BoundChange.upper a ub (v - 1)]] else []) ++
        (if v + 1 ≤ ub then [[BoundChange.lower a lb (v + 1)]] else []) ++
        [[BoundChange.lower a lb v, BoundChange.upper a ub v]] }

/-- The family as the search sees it. -/
def handler (f : NotEqualFamily) : CustomHandler K σ where
  name := "not_equal"
  numConstraints _ := f.pairs.size
  propagate conss g reason := modifyGet fun (d, w) =>
    let (verdict, d) := f.propagate g reason false d conss
    (verdict, d, w)
  check _ conss x tol := conss.filter fun i => decide (f.distance x i ≤ tol)
  locks _ i := [{ var := (f.pair i).1, down := true, up := true },
    { var := (f.pair i).2, down := true, up := true }]
  branchings _ conss x d := conss.filterMap (f.branching? x d)

end NotEqualFamily

end BranchAndCut

import BranchAndCut.Relaxation.KeyedSimplex
import BranchAndCut.Solve.Run

/-! Recorded solves. A session is the world of a solve with the simplex oracle:
it holds the oracle's state, the memory of plugins given as data, and a log of
what happened, of which only the first events are kept. Solves of the oracle
can be made to fail. -/

namespace BranchAndCut

/-- What is noted in a session. -/
inductive Event (K : Type) where
  | rowAdded (key : RowKey) (row : Row K)
  | rowRemoved (key : RowKey)
  /-- A relaxation was solved, with some number of rows. -/
  | solved (result : Relaxation K) (numRows : Nat)
  /-- A heuristic was called. -/
  | observed (x lower upper : Array K)
  /-- A pricer offered columns. -/
  | priced (objective : K) (depth offered : Nat)

/-- What a pricer remembers. -/
structure PricerMemory where
  /-- The columns that were offered. -/
  offered : List Nat := []
  calls : Nat := 0

structure Session (K : Type) where
  oracle : KeyedSimplex K
  /-- Solves of the oracle so far. -/
  solves : Nat := 0
  /-- The memory of each pricer. -/
  pricers : Array PricerMemory := #[]
  /-- The number of events to keep. -/
  capacity : Nat := 0
  numEvents : Nat := 0
  events : Array (Event K) := #[]

namespace Session

variable {K : Type} [Scalar K]

def new (settings : Lp.Settings K) (capacity numPricers : Nat := 0) : Session K where
  oracle := { settings }
  capacity := capacity
  pricers := Array.replicate numPricers {}

/-- A session for the next solve, in which the plugins remember the last one. -/
def again (s : Session K) : Session K :=
  { Session.new s.oracle.settings s.capacity with pricers := s.pricers }

def note (e : Event K) : EStateM (Error K) (Session K) Unit := modify fun s =>
  { s with
    numEvents := s.numEvents + 1
    events := if s.events.size < s.capacity then s.events.push e else s.events }

/-- The simplex oracle, recorded. The solves that are listed only report a status. -/
def recorder (outages : List (Nat × RelaxationStatus)) : Oracle K (Session K) :=
  let o : Oracle K (Session K) := KeyedSimplex.oracle.within Session.oracle (fun s oracle => { s with oracle })
  { o with
    addRows := fun rows => do
      rows.forM fun (key, row) => note (.rowAdded key row)
      o.addRows rows
    removeRows := fun keys => do
      keys.forM fun key => note (.rowRemoved key)
      o.removeRows keys
    solve := do
      let k := (← get).solves
      modify fun s => { s with solves := k + 1 }
      let r ← match outages.lookup k with
        | some status => pure (Relaxation.ofStatus status)
        | none => o.solve
      note (.solved r (← get).oracle.rows.size)
      pure r }

end Session

/-- A heuristic that always proposes the same point, if any. -/
structure FixedPoint (K : Type) where
  name : String := "fixed"
  x : Option (Array K) := none
  /-- Notes where it is called. -/
  observe : Bool := false

def FixedPoint.heuristic {K : Type} [Scalar K] (f : FixedPoint K) : Heuristic K (Session K) where
  name := f.name
  find p := do
    if f.observe then Session.note (.observed p.x p.domains.lower p.domains.upper)
    pure f.x

/-- A separator that returns all its cuts on every call. -/
structure FixedCuts (K : Type) where
  name : String := "fixed_cuts"
  cuts : List (Cut K) := []

def FixedCuts.separator {K : Type} (f : FixedCuts K) : Separator K (Session K) where
  name := f.name
  separate _ _ := pure f.cuts

/-- A pricer that offers each of its columns once. -/
structure ColumnList (K : Type) where
  name : String := "columns"
  columns : List (PricedColumn K) := []
  /-- Offers columns whatever their reduced cost. -/
  blind : Bool := false
  /-- Most columns of a call. -/
  batch : Option Nat := none
  /-- The lower bound claimed by each call. -/
  bounds : List (Option K) := []

namespace ColumnList

variable {K : Type} [Scalar K]

/-- The reduced cost of a column. -/
def reducedCost (p : PricingPoint K) (c : PricedColumn K) : K :=
  c.coefs.foldl (fun r (cons, a) => r - p.dual cons * a) (p.sign * c.obj)

/-- The columns of a call with their places in the list. -/
def choose (f : ColumnList K) (p : PricingPoint K) (offered : List Nat) : List (PricedColumn K × Nat) :=
  let open_ := f.columns.zipIdx.filter fun (c, i) =>
    !offered.contains i && (f.blind || decide (reducedCost p c < -1e-9))
  match f.batch with
  | some n => open_.take n
  | none => open_

/-- The pricer whose memory has some place in the session. -/
def pricer (f : ColumnList K) (place : Nat) : Pricer K (Session K) where
  name := f.name
  generate p := do
    let s ← get
    let memory := s.pricers.getD place {}
    let chosen := f.choose p memory.offered
    let memory' : PricerMemory :=
      { offered := memory.offered ++ chosen.map Prod.snd, calls := memory.calls + 1 }
    set { s with pricers := s.pricers.setIfInBounds place memory' }
    Session.note (.priced p.objective p.depth chosen.length)
    pure { columns := chosen.map Prod.fst, lowerBound := (f.bounds[memory.calls]?).join }

end ColumnList

/-- A scoring rule with a fixed score for each variable. -/
structure FixedScores (K : Type) where
  name : String := "scores"
  scores : Array K := #[]
  /-- Leaves the first candidate without a score. -/
  short : Bool := false

def FixedScores.rule {K σ : Type} [Scalar K] (f : FixedScores K) : ScoringRule K σ where
  name := f.name
  score cs _ w := ((if f.short then cs.drop 1 else cs).map fun c => f.scores.getD c.var 0, w)

/-- A solver with plugins given as data, to be run in sessions. -/
structure Setup (K : Type) where
  settings : Settings K
  outages : List (Nat × RelaxationStatus) := []
  heuristics : List (FixedPoint K) := []
  separators : List (FixedCuts K) := []
  pricers : List (ColumnList K) := []
  scoring : Option (FixedScores K) := none
  /-- Whether the solve is asked to stop from the start. -/
  interrupted : Bool := false
  /-- The number of events to keep. -/
  capacity : Nat := 0

namespace Setup

variable {K : Type} [Scalar K]

def solver (s : Setup K) : Solver K (Session K) where
  settings := s.settings
  oracle := Session.recorder s.outages
  plugins := {
    separators := s.separators.map FixedCuts.separator
    pricers := s.pricers.zipIdx.map fun (f, place) => f.pricer place
    heuristics := s.heuristics.map FixedPoint.heuristic }
  scoring := s.scoring.map FixedScores.rule
  signals _ _ := { interrupted := s.interrupted }

def session (s : Setup K) : Session K :=
  Session.new s.settings.relaxation s.capacity s.pricers.length

/-- Solves a model some number of times. The plugins keep their memory. -/
def solveAgain (s : Setup K) (m : Model K (Session K)) :
    Nat → Session K → List (Except (Error K) (Outcome K) × Session K)
  | 0, _ => []
  | n + 1, w =>
    let (result, w) := s.solver.solve m w
    (result, w) :: solveAgain s m n w.again

/-- The rows with which a solve starts, in order. -/
def startingRows (settings : Settings K) (m : Model K (Session K)) :
    Except (Error K) (List (RowKey × Row K)) := do
  match settings.validate with
  | .error flaw => throw (.invalid (.settings flaw))
  | .ok _ =>
    let s : Setup K := { settings, capacity := Nat.pow 2 62 }
    match Search.setUp s.solver (Search.ofModel s.solver m s.session) with
    | .ok _ search => return search.world.events.toList.filterMap fun e => match e with
      | .rowAdded key row => some (key, row)
      | _ => none
    | .error e _ => throw e

end Setup

end BranchAndCut

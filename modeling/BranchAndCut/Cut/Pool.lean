import BranchAndCut.Cut

/-! The pool of global cuts. A cut is a row of the relaxation while it is
active; one that stays slack for long is set aside, and comes back when a
solution violates it or the same cut is found again. -/

namespace BranchAndCut

inductive CutStatus where
  /-- A row of the relaxation. -/
  | active
  /-- In the pool only. -/
  | inactive
  | deleted
deriving DecidableEq, Repr

/-- A cut of the pool with its history. -/
structure PooledCut (K : Type) where
  cut : Cut K
  id : Nat
  status : CutStatus := .active
  /-- Rounds in which the cut was binding. -/
  timesBinding : Nat := 0
  /-- Rounds for which it has been slack without a break. -/
  slackCount : Nat := 0
  addedRound : Nat
  lastBindingRound : Nat

structure PoolSettings (K : Type) where
  /-- Size from which deleted cuts are dropped. -/
  maxCuts : Nat := 10000
  /-- Slack rounds after which a cut is set aside. -/
  maxSlackCount : Nat := 50
  /-- Rounds between two cleanups; zero for none. -/
  cleanupFreq : Nat := 100
  /-- Least share of binding rounds in the life of a cut. -/
  minActivityRatio : K

def PoolSettings.default {K : Type} [Scalar K] : PoolSettings K where
  minActivityRatio := 0.01

structure CutPool (K : Type) where
  settings : PoolSettings K
  cuts : Array (PooledCut K) := #[]
  nextId : Nat := 0
  round : Nat := 0
  totalAdded : Nat := 0
  totalRemoved : Nat := 0
  numActive : Nat := 0
  peakSize : Nat := 0
  duplicates : Nat := 0

namespace CutPool

variable {K : Type} [Scalar K]

def new (settings : PoolSettings K) : CutPool K where
  settings := settings

/-- Whether two sides agree once divided by the norms of their rows. -/
def sameSide (normA normB a b : K) : Bool :=
  if Scalar.isInfinite a || Scalar.isInfinite b then a == b
  else decide (Scalar.abs (a / normA - b / normB) < 1e-8)

/-- Whether two rows describe the same half-spaces: the same variables, parallel
coefficients and the same sides up to the norms. -/
def parallel (a b : Row K) : Bool :=
  if a.coefs.map Prod.fst ≠ b.coefs.map Prod.fst then false
  else
    let normA := a.norm
    let normB := b.norm
    if decide (normA < 1e-10) || decide (normB < 1e-10) then
      decide (normA < 1e-10) && decide (normB < 1e-10)
    else
      let dot := Scalar.sum (a.coefs.zipWith (fun p q => p.2 * q.2) b.coefs)
      if dot / (normA * normB) < 0.9999 then false
      else sameSide normA normB a.lhs b.lhs && sameSide normA normB a.rhs b.rhs

def get? (p : CutPool K) (id : Nat) : Option (PooledCut K) := p.cuts.find? (·.id == id)

/-- Changes the cut with an id. -/
def modifyCut (p : CutPool K) (id : Nat) (f : PooledCut K → PooledCut K) : CutPool K :=
  match p.cuts.findIdx? (·.id == id) with
  | some i => { p with cuts := p.cuts.modify i f }
  | none => p

/-- Brings an inactive cut back; answers whether it was inactive. -/
def activate (p : CutPool K) (id : Nat) : Bool × CutPool K :=
  match p.get? id with
  | none => (false, p)
  | some c =>
    if c.status = .inactive then
      (true, { p.modifyCut id fun c => { c with status := .active, slackCount := 0 } with
        numActive := p.numActive + 1 })
    else (false, p)

/-- Adds a cut. The answer is its id and whether it is in the relaxation already;
an inactive cut like it is brought back instead. -/
def add (p : CutPool K) (cut : Cut K) : Nat × Bool × CutPool K :=
  match p.cuts.find? fun c => c.status != .deleted && parallel cut.row c.cut.row with
  | some c =>
    if c.status = .active then (c.id, true, { p with duplicates := p.duplicates + 1 })
    else (c.id, false, (p.activate c.id).2)
  | none =>
    let cuts := p.cuts.push { cut, id := p.nextId, addedRound := p.round, lastBindingRound := p.round }
    (p.nextId, false, { p with
      cuts
      nextId := p.nextId + 1
      totalAdded := p.totalAdded + 1
      numActive := p.numActive + 1
      peakSize := Nat.max p.peakSize cuts.size })

/-- Counts a round for a cut. -/
def age (round : Nat) (binding : List Nat) (c : PooledCut K) : PooledCut K :=
  if c.status = .deleted then c
  else if binding.contains c.id then
    { c with timesBinding := c.timesBinding + 1, slackCount := 0, lastBindingRound := round }
  else if c.status = .active then { c with slackCount := c.slackCount + 1 }
  else c

/-- Whether an active cut is to be set aside. -/
def isStale (p : CutPool K) (c : PooledCut K) : Bool :=
  if c.status ≠ .active then false
  else if p.settings.maxSlackCount ≤ c.slackCount then true
  else
    let life := p.round - c.addedRound + 1
    let ratio : K := Scalar.ofNat c.timesBinding / Scalar.ofNat life
    10 < life && decide (ratio < p.settings.minActivityRatio)

/-- Sets cuts aside that stayed slack; the answer is their ids. -/
def cleanup (p : CutPool K) : List Nat × CutPool K :=
  let stale := (p.cuts.toList.filter p.isStale).map PooledCut.id
  let cuts := p.cuts.map fun c => if p.isStale c then { c with status := .inactive } else c
  let cuts := if 2 * p.settings.maxCuts < cuts.size then cuts.filter (·.status != .deleted) else cuts
  (stale, { p with cuts, numActive := p.numActive - stale.length })

/-- Counts a round with the dual values of some cuts. A cut binds when its dual
value is not zero. The answer is the cuts that the cleanup set aside. -/
def updateActivity (p : CutPool K) (duals : List (Nat × K)) : List Nat × CutPool K :=
  let round := p.round + 1
  let binding := (duals.filter fun (_, y) => decide (1e-8 < Scalar.abs y)).map Prod.fst
  let p : CutPool K := { p with round, cuts := p.cuts.map (age round binding) }
  if 0 < p.settings.cleanupFreq ∧ round % p.settings.cleanupFreq = 0 then p.cleanup else ([], p)

/-- Brings back the inactive cuts that a point violates; the answer is their ids. -/
def separateInactive (p : CutPool K) (x : Array K) (minEfficacy : K) : List Nat × CutPool K :=
  let ids := (p.cuts.toList.filter fun c =>
    c.status == .inactive && decide (minEfficacy < c.cut.row.efficacy x)).map PooledCut.id
  (ids, ids.foldl (fun p id => (p.activate id).2) p)

def activeCuts (p : CutPool K) : List (PooledCut K) := p.cuts.toList.filter (·.status == .active)

/-- Deletes a cut for good. -/
def delete (p : CutPool K) (id : Nat) : CutPool K :=
  let wasActive : Bool := match p.get? id with
    | some c => c.status == .active
    | none => false
  { p.modifyCut id fun c => { c with status := .deleted } with
    numActive := if wasActive then p.numActive - 1 else p.numActive
    totalRemoved := p.totalRemoved + 1 }

end CutPool

end BranchAndCut

import BranchAndCut.Model.Basic

/-! Families of generated models. Their numbers are drawn from a linear congruential generator:
`s ↦ 6364136223846793005 s + 1` modulo `2 ^ 64`, of which the upper 31 bits are used. -/

namespace BranchAndCut.Benchmark

structure Generator where
  state : UInt64
deriving DecidableEq, Repr

namespace Generator

def ofSeed (seed : UInt64) : Generator := ⟨seed⟩

def next (g : Generator) : Generator := ⟨g.state * 6364136223846793005 + 1⟩

/-- The bits of a state that are used, a number below `2 ^ 31`. -/
def bits (g : Generator) : Nat := (g.state >>> 33).toNat

variable {K : Type} [Scalar K]

/-- A number in [0, 1). -/
def unit (g : Generator) : K × Generator :=
  let g := g.next
  (Scalar.ofNat g.bits / Scalar.ofNat (Nat.pow 2 31), g)

variable (K) in
/-- An integer from `lo` to `hi`. -/
def range (lo hi : UInt32) (g : Generator) : UInt32 × Generator :=
  let (u, g) := g.unit (K := K)
  let span : K := Scalar.ofNat (hi - lo + 1).toNat
  let drawn := Nat.min (Scalar.toUInt64 (u * span)).toNat (hi - lo).toNat
  (lo + UInt32.ofNat drawn, g)

end Generator

inductive Family where
  /-- One knapsack with values close to the weights, so that the relaxation is weak. -/
  | knapsack
  /-- Several knapsacks over the same items. -/
  | multiKnapsack
  /-- Weighted covering of elements by sets. -/
  | setCover
  /-- Facility location with capacities: binary openings, continuous flows. -/
  | facility
  /-- A knapsack with at most one item of every four. -/
  | groupedKnapsack
deriving DecidableEq, Repr

namespace Family

def all : List Family := [.knapsack, .multiKnapsack, .setCover, .facility, .groupedKnapsack]

/-- The name of a family on the command line. -/
def name : Family → String
  | knapsack => "knapsack"
  | multiKnapsack => "multi-knapsack"
  | setCover => "set-cover"
  | facility => "facility"
  | groupedKnapsack => "grouped-knapsack"

/-- The name of a family in the names of its instances. -/
def shortName : Family → String
  | knapsack => "knap"
  | multiKnapsack => "mknap"
  | setCover => "scp"
  | facility => "cfl"
  | groupedKnapsack => "gknap"

def ofName? (name : String) : Option Family := all.find? fun f => f.name == name

end Family

/-- The name of an instance in reports. -/
def instanceName (f : Family) (size : Nat) (seed : UInt64) : String :=
  s!"{f.shortName}_{size}_{seed}"

/-- Building a model with random numbers. -/
abbrev BuildM (K σ : Type) := StateT Generator (ModelM K σ)

variable {K σ : Type} [Scalar K]

/-- A random integer as a number. -/
def draw (lo hi : UInt32) : BuildM K σ K := modifyGet fun g =>
  let (n, g) := g.range K lo hi
  (Scalar.ofNat n.toNat, g)

/-- A random number in [0, 1). -/
def drawUnit : BuildM K σ K := modifyGet Generator.unit

/-- A binary variable. -/
def binary (name : String) (obj : K) : BuildM K σ VarId :=
  (Model.addVar name .binary 0 1 obj : ModelM K σ VarId)

/-- A plain linear constraint. -/
def linear (name : String) (coefs : List (VarId × K)) (lhs rhs : K) : BuildM K σ Unit := do
  let _ ← (Model.addLinear name coefs lhs rhs .plain : ModelM K σ ConsId)

def maximize : BuildM K σ Unit := do
  modifyThe (Model K σ) fun m => { m with problem := { m.problem with maximize := true } }

/-- The sum of the coefficients of a row. -/
def total (row : List (VarId × K)) : K := Scalar.sum (row.map Prod.snd)

/-- `max ∑ v x` subject to `∑ w x ≤ W / 2`. -/
def knapsack (n : Nat) : BuildM K σ Unit := do
  maximize
  let weights ← (List.range n).mapM fun _ => draw 10 100
  let row ← weights.zipIdx.mapM fun (w, j) => do
    let v ← draw 0 10
    return (← binary s!"x{j}" (w + v), w)
  linear "capacity" row Scalar.negInf (Scalar.floor (Scalar.sum weights / 2))

/-- Knapsacks of three tenths of the total weight each. -/
def multiKnapsack (n m : Nat) : BuildM K σ Unit := do
  maximize
  let vars ← (List.range n).mapM fun j => do binary s!"x{j}" (← draw 1 50)
  (List.range m).forM fun i => do
    let row ← vars.mapM fun v => return (v, ← draw 5 40)
    linear s!"dim{i}" row Scalar.negInf (Scalar.floor (0.3 * total row))

/-- Adds random sets to a row until it has the given number of distinct ones. -/
def complete (sets : Array VarId) (wanted : Nat) (row : List (VarId × K)) :
    Nat → BuildM K σ (List (VarId × K))
  | 0 => throw .outOfSteps
  | fuel + 1 => do
    if wanted ≤ row.length then return row
    let i ← modifyGet fun g => g.range K 0 (UInt32.ofNat sets.size - 1)
    let s := sets.getD i.toNat 0
    if row.all fun (t, _) => t != s then complete sets wanted (row ++ [(s, 1)]) fuel
    else complete sets wanted row fuel

/-- `min ∑ c x` such that every element is covered. Every element is in at least
two sets, if there are two. -/
def setCover (numSets numElements : Nat) : BuildM K σ Unit := do
  let sets ← (List.range numSets).mapM fun j => do binary s!"s{j}" (← draw 1 20)
  (List.range numElements).forM fun e => do
    let row ← sets.filterMapM fun s => do
      return if (← drawUnit (K := K)) < 0.15 then some (s, (1 : K)) else none
    let row ← complete sets.toArray (Nat.min numSets 2) row (Nat.pow 2 64)
    linear s!"cover{e}" row 1 Scalar.inf

/-- `min ∑ f y + ∑ c x` such that `∑ᵢ xᵢⱼ = dⱼ`, `∑ⱼ xᵢⱼ ≤ uᵢ yᵢ`, `xᵢⱼ ≤ dⱼ yᵢ`. -/
def facility (numFacilities numCustomers : Nat) : BuildM K σ Unit := do
  let demand ← (List.range numCustomers).mapM fun _ => draw (K := K) 5 35
  let wanted := Scalar.sum demand
  let openings ← (List.range numFacilities).mapM fun i => do binary s!"y{i}" (← draw 100 400)
  let capacity ← openings.mapM fun _ => return Scalar.ceil (wanted * (0.4 + 0.4 * (← drawUnit)))
  let flow ← openings.zipIdx.mapM fun (y, i) => demand.zipIdx.mapM fun (d, j) => do
    let cost ← draw 1 30
    let x ← (Model.addVar s!"x{i}_{j}" .continuous 0 d cost : ModelM K σ VarId)
    linear s!"link{i}_{j}" [(x, 1), (y, -d)] Scalar.negInf 0
    return x
  demand.zipIdx.forM fun (d, j) =>
    linear s!"demand{j}" (flow.map fun xs => (xs.getD j 0, 1)) d d
  ((flow.zip openings).zip capacity).zipIdx.forM fun (((xs, y), u), i) =>
    linear s!"capacity{i}" ((xs.map fun x => (x, 1)) ++ [(y, -u)]) Scalar.negInf 0

/-- Draws the items from number `j` on, and closes a set after every fourth one
and after the last. -/
def groupedItems (n : Nat) (j : Nat) (group : List VarId) :
    Nat → BuildM K σ (List (VarId × K))
  | 0 => return []
  | left + 1 => do
    let w ← draw 10 60
    let v ← draw 0 15
    let x ← binary s!"x{j}" (w + v)
    let group := group ++ [x]
    let full := group.length == 4 || j + 1 == n
    if full then
      let _ ← (Model.addSos1 s!"group{j / 4}" group : ModelM K σ ConsId)
    let rest ← groupedItems n (j + 1) (if full then [] else group) left
    return (x, w) :: rest

/-- A knapsack over groups of four items, at most one of each group. -/
def groupedKnapsack (n : Nat) : BuildM K σ Unit := do
  maximize
  let row ← groupedItems n 0 [] n
  linear "capacity" row Scalar.negInf (Scalar.floor (0.15 * total row))

/-- The constraints and variables of an instance of about `size` variables. -/
def Family.fill (size : Nat) : Family → BuildM K σ Unit
  | .knapsack => Benchmark.knapsack size
  | .multiKnapsack => Benchmark.multiKnapsack size 5
  | .setCover => Benchmark.setCover size (size / 2 + 1)
  | .facility => Benchmark.facility (Nat.min (Nat.max size 3) 20) (Nat.max size 2)
  | .groupedKnapsack => Benchmark.groupedKnapsack size

/-- Builds an instance. -/
def Family.build (f : Family) (size : Nat) (seed : UInt64) : Except (Error K) (Model K σ) :=
  match f.fill size (Generator.ofSeed seed) (Model.new (instanceName f size seed)) with
  | .ok _ m => .ok m
  | .error e _ => .error e

end BranchAndCut.Benchmark

import BranchAndCut.Scalar

/-! Ranged linear rows `lhs ≤ ∑ aⱼ xⱼ ≤ rhs` and the keys that name them in the
relaxation. A row is kept canonical: its coefficients are nonzero and strictly
ordered by variable. -/

namespace BranchAndCut

/-- A variable is an index into every per-variable array; indices are never reused. -/
abbrev VarId := Nat

/-- A constraint, numbered in the order of registration. -/
abbrev ConsId := Nat

/-- A node of the search tree, numbered in the order of creation. -/
abbrev NodeId := Nat

/-- A family of constraints: linear ones, special ordered sets, then custom families. -/
abbrev HandlerId := Nat

/-- The name of a relaxation row. Rows are addressed by key, not by position, so
that bases and duals keep their meaning while rows come and go. -/
inductive RowKey where
  /-- Row `k` contributed by a constraint. -/
  | constraint (cons : ConsId) (k : Nat)
  /-- A global cut of the pool. -/
  | cut (id : Nat)
deriving DecidableEq, Repr, Inhabited

def RowKey.text : RowKey → String
  | .constraint c k => s!"c{c}.{k}"
  | .cut id => s!"cut{id}"

/-- A ranged row. -/
structure Row (K : Type) where
  /-- Coefficients by variable, in increasing order. -/
  coefs : List (VarId × K)
  lhs : K
  rhs : K

namespace Row

variable {K : Type} [Scalar K]

/-- Adds the coefficients of neighbours with the same variable, from left to right. -/
def mergeRuns : List (VarId × K) → List (VarId × K)
  | [] => []
  | (v, a) :: rest => go v a rest
where
  go (v : VarId) (a : K) : List (VarId × K) → List (VarId × K)
    | [] => [(v, a)]
    | (w, b) :: rest => if v = w then go v (a + b) rest else (v, a) :: go w b rest

/-- The canonical coefficients of a list in any order, with repetitions. -/
def canonical (coefs : List (VarId × K)) : List (VarId × K) :=
  (mergeRuns (coefs.mergeSort fun p q => decide (p.1 ≤ q.1))).filter fun (_, a) => a != 0

/-- A row from any list of coefficients. -/
def of (coefs : List (VarId × K)) (lhs rhs : K) : Row K := { coefs := canonical coefs, lhs, rhs }

/-- The row `∑ aⱼ xⱼ ≤ rhs`. -/
def lessEqual (coefs : List (VarId × K)) (rhs : K) : Row K := of coefs Scalar.negInf rhs

/-- The row `lhs ≤ ∑ aⱼ xⱼ`. -/
def greaterEqual (coefs : List (VarId × K)) (lhs : K) : Row K := of coefs lhs Scalar.inf

/-- The activity `∑ aⱼ xⱼ` at a point. -/
@[specialize] def activity (r : Row K) (x : Array K) : K :=
  Scalar.sum (r.coefs.map fun (v, a) => a * x.getD v 0)

/-- The amount by which a point violates the row, zero if it satisfies it. -/
@[specialize] def violation (r : Row K) (x : Array K) : K :=
  let act := r.activity x
  Scalar.max (Scalar.max (r.lhs - act) (act - r.rhs)) 0

/-- The Euclidean norm of the coefficients. -/
@[specialize] def norm (r : Row K) : K := Scalar.sqrt (Scalar.sum (r.coefs.map fun (_, a) => a * a))

/-- The distance of a point to the row's half-space; zero for an empty row. -/
@[specialize] def efficacy (r : Row K) (x : Array K) : K :=
  let norm := r.norm
  if norm < 1e-12 then 0 else r.violation x / norm

/-! ## Single coefficients

The coefficient of a variable is found by halving, as the order of a row allows. -/

/-- The first place between `lo` and `hi` from which on no variable comes before `v`. -/
def placeFrom (coefs : List (VarId × K)) (v : VarId) (lo hi : Nat) : Nat → Nat
  | 0 => lo
  | fuel + 1 =>
    if lo < hi then
      let mid := (lo + hi) / 2
      if coefs[mid]?.any fun e => e.1 < v then placeFrom coefs v (mid + 1) hi fuel
      else placeFrom coefs v lo mid fuel
    else lo

/-- Where the entry of a variable stands, or belongs. -/
def place (coefs : List (VarId × K)) (v : VarId) : Nat :=
  placeFrom coefs v 0 coefs.length coefs.length

/-- The entry of a variable. -/
def find? (coefs : List (VarId × K)) (v : VarId) : Option K :=
  match coefs[place coefs v]? with
  | some (w, a) => if w = v then some a else none
  | none => none

/-- The coefficient of a variable, zero if it does not occur. -/
def coef (r : Row K) (v : VarId) : K := (find? r.coefs v).getD 0

/-- What is stored for a coefficient: nothing for zero. -/
def entry (v : VarId) (a : K) : List (VarId × K) := if a == 0 then [] else [(v, a)]

/-- Adds to the coefficient of a variable in canonical coefficients. -/
def addTo (v : VarId) (delta : K) (coefs : List (VarId × K)) : List (VarId × K) :=
  let pos := place coefs v
  match find? coefs v with
  | some a => coefs.take pos ++ entry v (a + delta) ++ coefs.drop (pos + 1)
  | none => coefs.take pos ++ entry v delta ++ coefs.drop pos

/-- Adds to the coefficient of a variable. -/
def addCoef (r : Row K) (v : VarId) (delta : K) : Row K := { r with coefs := addTo v delta r.coefs }

theorem mem_entry {v : VarId} {a : K} {e : VarId × K} (he : e ∈ entry v a) : e = (v, a) := by
  unfold entry at he
  split at he
  · cases he
  · exact List.mem_singleton.mp he

omit [Scalar K] in
theorem find?_some {coefs : List (VarId × K)} {v : VarId} {a : K} (h : find? coefs v = some a) :
    coefs[place coefs v]? = some (v, a) := by
  unfold find? at h
  split at h
  · next w b hget =>
    split at h
    · next hvar =>
      obtain rfl := Option.some.inj h
      exact hvar ▸ hget
    · cases h
  · cases h

/-- Adding to a coefficient replaces one entry, or puts a new one at the place of its variable. -/
theorem addTo_eq (v : VarId) (delta : K) (coefs : List (VarId × K)) :
    ∃ old a, (old = [] ∧ find? coefs v = none ∧ a = delta ∨
        ∃ b, old = [(v, b)] ∧ find? coefs v = some b ∧ a = b + delta) ∧
      ∃ after, coefs = coefs.take (place coefs v) ++ old ++ after ∧
        addTo v delta coefs = coefs.take (place coefs v) ++ entry v a ++ after := by
  unfold addTo
  cases h : find? coefs v with
  | none =>
    refine ⟨[], delta, .inl ⟨rfl, rfl, rfl⟩, coefs.drop (place coefs v), ?_, rfl⟩
    rw [List.append_nil, List.take_append_drop]
  | some b =>
    obtain ⟨hlt, hget⟩ := List.getElem?_eq_some_iff.mp (find?_some h)
    refine ⟨[(v, b)], b + delta, .inr ⟨b, rfl, rfl, rfl⟩, coefs.drop (place coefs v + 1), ?_, rfl⟩
    rw [← hget, List.append_assoc, List.singleton_append, List.getElem_cons_drop, List.take_append_drop]

/-- Whether all numbers of the row are meaningful: finite coefficients, and
sides that are not infinite towards the inside. -/
def isValid (r : Row K) : Bool :=
  (r.coefs.all fun (_, a) => Scalar.isFinite a) && !Scalar.isNaN r.lhs && !Scalar.isNaN r.rhs &&
    r.lhs != Scalar.inf && r.rhs != Scalar.negInf

end Row

end BranchAndCut

import Mathlib
import BranchAndCut.Scalar

/-! # Exact numbers

The numbers over which the solver is reasoned about: the elements of an ordered
field, two infinities and the undefined value, with the conventions of machine
arithmetic for everything that is not finite. Nothing is rounded. Square roots,
which rationals need not have, are left open. -/

namespace BranchAndCut

/-- A choice of square roots. Only the norms of rows use them. -/
class Rooted (F : Type) where
  root : F → F

/-- The square roots of rationals, cut off at the denominator of the argument. -/
instance : Rooted ℚ := ⟨fun q => (Nat.sqrt (q.num.toNat * q.den) : ℚ) / q.den⟩

/-- An element of `F`, an infinity, or the undefined value. -/
inductive Exact (F : Type) where
  | nan
  | negInf
  | fin (a : F)
  | posInf
deriving DecidableEq, Repr

namespace Exact

variable {F : Type} [Field F] [LinearOrder F] [FloorRing F]

/-! ## Operations -/

/-- The infinity with the sign of an element; the undefined value for zero. -/
def signedInf (a : F) : Exact F := if 0 < a then posInf else if a < 0 then negInf else nan

def neg : Exact F → Exact F
  | nan => nan
  | negInf => posInf
  | fin a => fin (-a)
  | posInf => negInf

def add : Exact F → Exact F → Exact F
  | fin a, fin b => fin (a + b)
  | nan, _ => nan
  | _, nan => nan
  | posInf, negInf => nan
  | negInf, posInf => nan
  | posInf, _ => posInf
  | _, posInf => posInf
  | negInf, _ => negInf
  | _, negInf => negInf

def mul : Exact F → Exact F → Exact F
  | fin a, fin b => fin (a * b)
  | nan, _ => nan
  | _, nan => nan
  | posInf, posInf => posInf
  | posInf, negInf => negInf
  | negInf, posInf => negInf
  | negInf, negInf => posInf
  | posInf, fin a => signedInf a
  | fin a, posInf => signedInf a
  | negInf, fin a => signedInf (-a)
  | fin a, negInf => signedInf (-a)

def div : Exact F → Exact F → Exact F
  | fin a, fin b => if b = 0 then signedInf a else fin (a / b)
  | nan, _ => nan
  | _, nan => nan
  | fin _, _ => fin 0
  | posInf, fin b => if b < 0 then negInf else posInf
  | negInf, fin b => if b < 0 then posInf else negInf
  | _, _ => nan

def le : Exact F → Exact F → Prop
  | nan, _ => False
  | _, nan => False
  | fin a, fin b => a ≤ b
  | negInf, _ => True
  | _, posInf => True
  | _, _ => False

def lt : Exact F → Exact F → Prop
  | nan, _ => False
  | _, nan => False
  | fin a, fin b => a < b
  | posInf, _ => False
  | _, negInf => False
  | _, _ => True

instance : DecidableRel (le : Exact F → Exact F → Prop) := fun a b => by
  cases a <;> cases b <;> unfold le <;> infer_instance

instance : DecidableRel (lt : Exact F → Exact F → Prop) := fun a b => by
  cases a <;> cases b <;> unfold lt <;> infer_instance

/-- Applies a function to finite values only. -/
def onFinite (f : F → F) : Exact F → Exact F
  | fin a => fin (f a)
  | a => a

/-- The place among all values: negative infinity first, the undefined value last. -/
def place : Exact F → Nat
  | negInf => 0
  | fin _ => 1
  | posInf => 2
  | nan => 3

/-- The element that a finite value holds, zero for the others. -/
def toField : Exact F → F
  | fin a => a
  | _ => 0

/-- The nearest integer, halves away from zero. -/
def nearest (a : F) : F := if 0 ≤ a then (⌊a + 1 / 2⌋ : F) else (⌈a - 1 / 2⌉ : F)

instance [Rooted F] : Scalar (Exact F) where
  add := add
  sub a b := add a (neg b)
  mul := mul
  div := div
  neg := neg
  lt := lt
  le := le
  beq a b := decide (a ≠ nan ∧ a = b)
  ofScientific m s e := fin (OfScientific.ofScientific m s e)
  ofNat n := fin n
  decLt := fun a b => inferInstanceAs (Decidable (lt a b))
  decLe := fun a b => inferInstanceAs (Decidable (le a b))
  inf := posInf
  isNaN a := a = nan
  isFinite
    | fin _ => true
    | _ => false
  abs
    | fin a => fin |a|
    | nan => nan
    | _ => posInf
  floor := onFinite fun a => (⌊a⌋ : F)
  ceil := onFinite fun a => (⌈a⌉ : F)
  round := onFinite nearest
  sqrt
    | fin a => if a < 0 then nan else fin (Rooted.root a)
    | posInf => posInf
    | _ => nan
  toUInt64
    | fin a => UInt64.ofNat (min ⌊a⌋.toNat (2 ^ 64 - 1))
    | posInf => UInt64.ofNat (2 ^ 64 - 1)
    | _ => 0
  totalOrder a b :=
    match a, b with
    | fin a, fin b => compare a b
    | a, b => compare a.place b.place

/-! ## Finite values -/

variable [Rooted F]

theorem zero_def : (0 : Exact F) = fin 0 := congrArg fin Nat.cast_zero

theorem one_def : (1 : Exact F) = fin 1 := congrArg fin Nat.cast_one

theorem scientific_def (m : Nat) (s : Bool) (e : Nat) :
    (OfScientific.ofScientific m s e : Exact F) = fin (OfScientific.ofScientific m s e) := rfl

@[simp] theorem fin_add (a b : F) : fin a + fin b = fin (a + b) := rfl

@[simp] theorem fin_sub (a b : F) : fin a - fin b = fin (a - b) :=
  congrArg fin (sub_eq_add_neg a b).symm

@[simp] theorem fin_mul (a b : F) : fin a * fin b = fin (a * b) := rfl

@[simp] theorem fin_neg (a : F) : -fin a = fin (-a) := rfl

theorem fin_div {a b : F} (h : b ≠ 0) : fin a / fin b = fin (a / b) := if_neg h

@[simp] theorem fin_le (a b : F) : fin a ≤ fin b ↔ a ≤ b := Iff.rfl

@[simp] theorem fin_lt (a b : F) : fin a < fin b ↔ a < b := Iff.rfl

@[simp] theorem fin_beq (a b : F) : (fin a == fin b) = decide (a = b) := by
  show decide _ = _
  simp

@[simp] theorem fin_bne (a b : F) : (fin a != fin b) = decide (a ≠ b) := by
  simp [bne]

@[simp] theorem isNaN_fin (a : F) : Scalar.isNaN (fin a) = false := rfl

@[simp] theorem isFinite_fin (a : F) : Scalar.isFinite (fin a) = true := rfl

@[simp] theorem abs_fin (a : F) : Scalar.abs (fin a) = fin |a| := rfl

@[simp] theorem floor_fin (a : F) : Scalar.floor (fin a) = fin (⌊a⌋ : F) := rfl

@[simp] theorem ceil_fin (a : F) : Scalar.ceil (fin a) = fin (⌈a⌉ : F) := rfl

@[simp] theorem round_fin (a : F) : Scalar.round (fin a) = fin (nearest a) := rfl

@[simp] theorem frac_fin (a : F) : Scalar.frac (fin a) = fin (Int.fract a) := by
  unfold Scalar.frac
  rw [floor_fin, fin_sub, Int.self_sub_floor]

@[simp] theorem isFinite_posInf : Scalar.isFinite (posInf : Exact F) = false := rfl

@[simp] theorem isFinite_negInf : Scalar.isFinite (negInf : Exact F) = false := rfl

@[simp] theorem isFinite_nan : Scalar.isFinite (nan : Exact F) = false := rfl

theorem isFinite_iff {x : Exact F} : Scalar.isFinite x = true ↔ ∃ a, x = fin a := by
  cases x <;> simp

theorem isNaN_iff {x : Exact F} : Scalar.isNaN x = true ↔ x = nan := by
  cases x <;> simp [Scalar.isNaN]

/-- What is not finite does not become finite again. -/
theorem isFinite_of_add {x y : Exact F} (h : Scalar.isFinite (x + y) = true) :
    Scalar.isFinite x = true ∧ Scalar.isFinite y = true := by
  cases x <;> cases y <;> first | exact ⟨rfl, rfl⟩ | cases h

theorem isFinite_of_mul {x y : Exact F} (h : Scalar.isFinite (x * y) = true) :
    Scalar.isFinite x = true ∧ Scalar.isFinite y = true := by
  have hsigned : ∀ a : F, Scalar.isFinite (signedInf a) = false := fun a => by
    unfold signedInf
    split_ifs <;> rfl
  cases x <;> cases y <;> first | exact ⟨rfl, rfl⟩ | cases h | exact nomatch (hsigned _).symm.trans h

theorem max_fin (a b : F) : Scalar.max (fin a) (fin b) = fin (max a b) := by
  unfold Scalar.max
  by_cases h : a < b
  · simp [h, max_eq_right h.le]
  · simp [h, max_eq_left (not_lt.mp h)]

theorem min_fin (a b : F) : Scalar.min (fin a) (fin b) = fin (min a b) := by
  unfold Scalar.min
  by_cases h : b < a
  · simp [h, min_eq_right h.le]
  · simp [h, min_eq_left (not_lt.mp h)]

omit [LinearOrder F] [FloorRing F] [Rooted F] in
@[simp] theorem toField_fin (a : F) : (fin a).toField = a := rfl

theorem fin_toField {x : Exact F} (h : Scalar.isFinite x = true) : fin x.toField = x := by
  obtain ⟨a, rfl⟩ := isFinite_iff.mp h
  rfl

/-! ## Order -/

omit [LinearOrder F] [FloorRing F] [Rooted F] [Field F] in
theorem fin_ne_nan (a : F) : fin a ≠ nan := nofun

section Cases

attribute [local simp] le lt

theorem le_trans' {x y z : Exact F} (hxy : x ≤ y) (hyz : y ≤ z) : x ≤ z := by
  change le x y at hxy
  change le y z at hyz
  change le x z
  cases x <;> cases y <;> cases z <;> simp_all only [le]
  exact le_trans hxy hyz

instance : Trans (α := Exact F) (· ≤ ·) (· ≤ ·) (· ≤ ·) := ⟨le_trans'⟩

theorem ne_nan_of_le {x y : Exact F} (h : x ≤ y) : x ≠ nan ∧ y ≠ nan := by
  change le x y at h
  cases x <;> cases y <;> simp_all

theorem le_refl' {x : Exact F} (h : x ≠ nan) : x ≤ x := by
  change le x x
  cases x <;> simp_all

theorem ne_nan_of_lt {x y : Exact F} (h : x < y) : x ≠ nan ∧ y ≠ nan := by
  change lt x y at h
  cases x <;> cases y <;> simp_all

theorem not_lt_of_le {x y : Exact F} (h : x ≤ y) : ¬ y < x := by
  change le x y at h
  change ¬ lt y x
  cases x <;> cases y <;> simp_all

theorem le_of_not_lt {x y : Exact F} (hx : x ≠ nan) (hy : y ≠ nan) (h : ¬ y < x) : x ≤ y := by
  change ¬ lt y x at h
  change le x y
  cases x <;> cases y <;> simp_all

theorem lt_of_not_le {x y : Exact F} (hx : x ≠ nan) (hy : y ≠ nan) (h : ¬ y ≤ x) : x < y := by
  change ¬ le y x at h
  change lt x y
  cases x <;> cases y <;> simp_all

theorem le_of_lt {x y : Exact F} (h : x < y) : x ≤ y := by
  change lt x y at h
  change le x y
  cases x <;> cases y <;> simp_all
  exact h.le

theorem lt_of_lt_of_le' {x y z : Exact F} (hxy : x < y) (hyz : y ≤ z) : x < z := by
  change lt x y at hxy
  change le y z at hyz
  change lt x z
  cases x <;> cases y <;> cases z <;> simp_all only [lt, le]
  exact lt_of_lt_of_le hxy hyz

theorem lt_of_le_of_lt' {x y z : Exact F} (hxy : x ≤ y) (hyz : y < z) : x < z := by
  change le x y at hxy
  change lt y z at hyz
  change lt x z
  cases x <;> cases y <;> cases z <;> simp_all only [lt, le]
  exact lt_of_le_of_lt hxy hyz

end Cases

theorem zero_le_fin {a : F} : (0 : Exact F) ≤ fin a ↔ 0 ≤ a := by rw [zero_def, fin_le]

section Ordered

variable {x t : Exact F} {a : F}

/-- A sum with a nonnegative value that is less than something has a finite second part. -/
theorem exists_fin_of_add_lt {y : Exact F} (ht : 0 ≤ t) (h : x + t < y) : ∃ b, t = fin b := by
  rw [zero_def] at ht
  cases t with
  | fin b => exact ⟨b, rfl⟩
  | nan => exact ht.elim
  | negInf => exact ht.elim
  | posInf => cases x <;> cases y <;> exact h.elim

theorem fin_mul_posInf (ha : 0 < a) : fin a * posInf = posInf := if_pos ha

theorem fin_mul_posInf_of_neg (ha : a < 0) : fin a * posInf = negInf :=
  (if_neg (not_lt.mpr ha.le)).trans (if_pos ha)

variable [IsStrictOrderedRing F]

theorem fin_mul_negInf (ha : 0 < a) : fin a * negInf = negInf :=
  fin_mul_posInf_of_neg (neg_neg_of_pos ha)

theorem fin_mul_negInf_of_neg (ha : a < 0) : fin a * negInf = posInf :=
  fin_mul_posInf (neg_pos.mpr ha)

theorem mul_le_mul_fin {y : Exact F} (ha : 0 < a) (h : x ≤ y) : fin a * x ≤ fin a * y := by
  cases x <;> cases y <;> try exact h.elim
  all_goals simp only [fin_mul_posInf ha, fin_mul_negInf ha, fin_mul]
  all_goals first | trivial | exact mul_le_mul_of_nonneg_left h ha.le

theorem mul_le_mul_fin_of_neg {y : Exact F} (ha : a < 0) (h : x ≤ y) :
    fin a * y ≤ fin a * x := by
  cases x <;> cases y <;> try exact h.elim
  all_goals simp only [fin_mul_posInf_of_neg ha, fin_mul_negInf_of_neg ha, fin_mul]
  all_goals first | trivial | exact mul_le_mul_of_nonpos_left h ha.le

/-- Loosening an upper bound keeps the values below it. -/
theorem fin_le_add (ht : 0 ≤ t) (h : fin a ≤ x) : fin a ≤ x + t := by
  rw [zero_def] at ht
  cases x <;> cases t <;> try trivial
  exact le_add_of_le_of_nonneg h ht

/-- Loosening a lower bound keeps the values above it. -/
theorem sub_le_fin (ht : 0 ≤ t) (h : x ≤ fin a) : x - t ≤ fin a := by
  rw [zero_def] at ht
  cases x <;> cases t <;> try trivial
  rw [fin_sub]
  exact (sub_le_self _ ((fin_le _ _).mp ht)).trans h

theorem lt_sub_of_add_lt {y : Exact F} (h : x + fin a < y) : x < y - fin a := by
  cases x <;> cases y <;> first | exact h.elim | trivial | skip
  rw [fin_add, fin_lt] at h
  rw [fin_sub, fin_lt]
  linarith

theorem not_add_lt_of_le {y : Exact F} (ht : 0 ≤ t) (h : x ≤ y) : ¬ y + t < x := by
  intro hlt
  obtain ⟨b, rfl⟩ := exists_fin_of_add_lt ht hlt
  rw [zero_le_fin] at ht
  cases x <;> cases y <;> first | exact h.elim | exact hlt.elim | skip
  rw [fin_add, fin_lt] at hlt
  rw [fin_le] at h
  linarith

theorem ceil_le_intCast {z : ℤ} (h : x ≤ fin (z : F)) : Scalar.ceil x ≤ fin (z : F) := by
  cases x with
  | fin b => exact Int.cast_le.mpr (Int.ceil_le.mpr h)
  | nan => exact h
  | negInf => exact h
  | posInf => exact h

theorem intCast_le_floor {z : ℤ} (h : fin (z : F) ≤ x) : fin (z : F) ≤ Scalar.floor x := by
  cases x with
  | fin b => exact Int.cast_le.mpr (Int.le_floor.mpr h)
  | nan => exact h
  | negInf => exact h
  | posInf => exact h

end Ordered

theorem max_le' {x y z : Exact F} (hx : x ≤ z) (hy : y ≤ z) : Scalar.max x y ≤ z := by
  unfold Scalar.max
  split_ifs
  exacts [hy, hy, hx]

theorem le_min' {x y z : Exact F} (hx : z ≤ x) (hy : z ≤ y) : z ≤ Scalar.min x y := by
  unfold Scalar.min
  split_ifs
  exacts [hy, hy, hx]

theorem min_le_right' {x y : Exact F} (hy : y ≠ nan) : Scalar.min x y ≤ y := by
  unfold Scalar.min
  split_ifs with hx hlt
  · exact le_refl' hy
  · exact le_refl' hy
  · exact le_of_not_lt (fun h => hx (isNaN_iff.mpr h)) hy hlt

theorem le_max_right' {x y : Exact F} (hy : y ≠ nan) : y ≤ Scalar.max x y := by
  unfold Scalar.max
  split_ifs with hx hlt
  · exact le_refl' hy
  · exact le_refl' hy
  · exact le_of_not_lt hy (fun h => hx (isNaN_iff.mpr h)) hlt

/-- The lesser of two values, one of them below a third. -/
theorem min_le_of_le {x y z : Exact F} (h : x ≤ z) : Scalar.min x y ≤ z := by
  have hx : Scalar.isNaN x = false := by
    cases x <;> first | rfl | exact h.elim
  unfold Scalar.min
  rw [hx, if_neg Bool.false_ne_true]
  split
  · next hlt => exact le_trans' (le_of_lt hlt) h
  · exact h

theorem le_max_of_le {x y z : Exact F} (h : z ≤ x) : z ≤ Scalar.max x y := by
  have hx : Scalar.isNaN x = false := by
    cases x <;> first | rfl | (cases z <;> exact h.elim)
  unfold Scalar.max
  rw [hx, if_neg Bool.false_ne_true]
  split
  · next hlt => exact le_trans' h (le_of_lt hlt)
  · exact h

end Exact

end BranchAndCut

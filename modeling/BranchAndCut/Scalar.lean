/-! The numbers of the solver. All algorithms are written once, over a type `K`
with the operations of `Scalar`: run on machine floating point, stated over
exact numbers with two infinities. The class carries operations only; the
operations derived from them below are the ones whose treatment of infinite
and undefined values matters. -/

namespace BranchAndCut

/-- Numbers with infinities and, possibly, an undefined value that compares
false with everything, itself included. -/
class Scalar (K : Type) extends Add K, Sub K, Mul K, Div K, Neg K, LT K, LE K, BEq K,
    OfScientific K where
  /-- The value of a natural number. -/
  ofNat : Nat → K
  decLt : DecidableLT K
  decLe : DecidableLE K
  /-- Positive infinity. -/
  inf : K
  /-- Whether a value is the undefined one. -/
  isNaN : K → Bool
  /-- Whether a value is neither infinite nor undefined. -/
  isFinite : K → Bool
  /-- Absolute value. -/
  abs : K → K
  /-- The greatest integer at most the argument. -/
  floor : K → K
  /-- The least integer at least the argument. -/
  ceil : K → K
  /-- The nearest integer, halves away from zero. -/
  round : K → K
  sqrt : K → K
  /-- The integer part, clamped to the range of 64 bit naturals; zero for the
  undefined value. -/
  toUInt64 : K → UInt64
  /-- A linear order on all values, undefined and signed zero included. -/
  totalOrder : K → K → Ordering

namespace Scalar

instance (priority := low) {K : Type} [Scalar K] (n : Nat) : OfNat K n := ⟨Scalar.ofNat n⟩

instance {K : Type} [Scalar K] : DecidableLT K := Scalar.decLt

instance {K : Type} [Scalar K] : DecidableLE K := Scalar.decLe

variable {K : Type} [Scalar K]

/-- Negative infinity. -/
@[inline] def negInf : K := -inf

@[inline] def isInfinite (a : K) : Bool := !isFinite a && !isNaN a

/-- The greater value; an undefined operand is ignored. -/
@[inline] def max (a b : K) : K := if isNaN a then b else if a < b then b else a

/-- The lesser value; an undefined operand is ignored. -/
@[inline] def min (a b : K) : K := if isNaN a then b else if b < a then b else a

/-- The sum of a list, added from left to right. The empty sum is the neutral
element of addition, which is the negative zero where zeros are signed. -/
@[specialize] def sum (l : List K) : K := l.foldl (· + ·) (-(0 : K))

/-- The fractional part measured downwards, `a - ⌊a⌋`. -/
@[inline] def frac (a : K) : K := a - floor a

/-- Whether `a` comes strictly before `b` in the total order. -/
@[inline] def before (a b : K) : Bool := totalOrder a b == .lt

end Scalar

/-- The position of a floating point number in the total order of bit
patterns: negative values in reverse, then positive ones. -/
def floatRank (x : Float) : Int :=
  let b := x.toBits.toNat
  if b < Nat.pow 2 63 then (b : Int) else Int.ofNat (Nat.pow 2 63) - 1 - b

/-- The integer part of a floating point number. From 2⁵² on all of them are whole. -/
def floatTrunc (x : Float) : Float :=
  if x.abs < 4503599627370496.0 then
    if 0 < x then x.toUInt64.toFloat
    else if x < 0 then -(-x).toUInt64.toFloat
    else x
  else x

/-- The greatest integer at most the argument. -/
def floatFloor (x : Float) : Float :=
  let t := floatTrunc x
  if x < t then t - 1 else t

/-- The least integer at least the argument. -/
def floatCeil (x : Float) : Float :=
  let t := floatTrunc x
  if t < x then t + 1 else t

/-- The nearest integer, halves away from zero. -/
def floatRound (x : Float) : Float :=
  let t := floatTrunc x
  if 0.5 ≤ (x - t).abs then (if x < 0 then t - 1 else t + 1) else t

instance : Scalar Float where
  ofNat := Float.ofNat
  decLt := fun a b => inferInstanceAs (Decidable (a < b))
  decLe := fun a b => inferInstanceAs (Decidable (a ≤ b))
  inf := 1.0 / 0.0
  isNaN := Float.isNaN
  isFinite := Float.isFinite
  abs := Float.abs
  floor := floatFloor
  ceil := floatCeil
  round := floatRound
  sqrt := Float.sqrt
  toUInt64 := Float.toUInt64
  totalOrder a b := compare (floatRank a) (floatRank b)

end BranchAndCut

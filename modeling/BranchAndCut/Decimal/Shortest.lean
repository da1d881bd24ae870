import BranchAndCut.Decimal.Rounding

/-! The shortest decimal that reads back as a given double: the fewest digits
that lie in the interval of reals rounding to it, and of those the nearest. -/

namespace BranchAndCut.Decimal

/-- Which of two equally near digit strings is taken. -/
inductive Tie where
  | toEven
  | up
deriving DecidableEq, Repr

/-- The interval of reals that round to a positive double. Everything is in
quarters of its last place, so that the ends are naturals; the lower end is
nearer where the spacing of doubles halves. -/
structure Interval where
  /-- The unit: a quarter of the last place. -/
  unit : Int
  low : Nat
  center : Nat
  high : Nat
  /-- Whether the ends themselves round to the number. -/
  closed : Bool

/-- The interval of a positive double. -/
def Interval.of (b : Binary) : Interval where
  unit := b.exponent - 2
  low := if b.mantissa = Nat.pow 2 52 ∧ -1074 < b.exponent then 4 * b.mantissa - 1 else 4 * b.mantissa - 2
  center := 4 * b.mantissa
  high := 4 * b.mantissa + 2
  closed := b.mantissa % 2 = 0

/-- Twice the distance of two naturals, up to the order of the arguments. -/
def gap (a b : Nat) : Nat := (a - b) + (b - a)

/-- The nearest point of the grid of multiples of `10 ^ e` inside the interval,
as a multiple, if a neighbour of the number on the grid lies inside. -/
def Interval.onGrid? (i : Interval) (tie : Tie) (e : Int) : Option Nat :=
  let scale := fun (quarters : Nat) => unscale (Binary.ratio ⟨quarters, i.unit⟩).1
    (Binary.ratio ⟨quarters, i.unit⟩).2 e
  let (low, den) := scale i.low
  let (center, _) := scale i.center
  let (high, _) := scale i.high
  let inside := fun (k : Nat) =>
    if i.closed then decide (low ≤ k * den ∧ k * den ≤ high)
    else decide (low < k * den ∧ k * den < high)
  let below := center / den
  let above := below + 1
  match inside below, inside above with
  | false, false => none
  | true, false => some below
  | false, true => some above
  | true, true =>
    let down := gap center (below * den)
    let up := gap center (above * den)
    if down < up then some below
    else if up < down then some above
    else if tie = .up ∨ below % 2 = 1 then some above else some below

/-- The shortest digits of a positive double. Seventeen always suffice. -/
def shortest (tie : Tie) (b : Binary) : Digits :=
  let (num, den) := b.ratio
  let lead := leadingExponent num den
  let hit := (List.range 17).findSome? fun (k : Nat) =>
    ((Interval.of b).onGrid? tie (lead - k)).map fun c => Digits.ofScaled c (lead - k)
  hit.getD (significant 17 b)

/-- The shortest text of a number in positional notation, however large or
small it is. Whole numbers have no point. -/
def positional (x : Float) : String :=
  match partsOf x with
  | .undefined => "NaN"
  | .infinite negative => signed negative "inf"
  | .finite negative b =>
    signed negative (if b.mantissa = 0 then "0" else (shortest .up b).positional)

/-- The shortest text of a number with a point or an exponent: positional for
magnitudes from `1e-5` to below `1e16`. Infinite and undefined values have none. -/
def pointed? (x : Float) : Option String :=
  match partsOf x with
  | .finite negative b =>
    let d : Digits := if b.mantissa = 0 then ⟨[0], 0⟩ else shortest .toEven b
    let whole := decide ((d.digits.length : Int) ≤ d.exponent + 1)
    some <| signed negative <|
      if -6 < d.exponent ∧ d.exponent < 16 then d.positional ++ (if whole then ".0" else "")
      else d.scientific
  | _ => none

end BranchAndCut.Decimal

/-! JSON documents as they are read: numbers keep their written digits, and
members keep their order and their repetitions, so that each reader of a
document decides itself what it accepts. -/

namespace BranchAndCut.Json

/-- A number as written: `± digits * 10 ^ exponent`. -/
structure Number where
  negative : Bool
  digits : Nat
  exponent : Int
  /-- Whether the text had neither a point nor an exponent. -/
  whole : Bool
deriving DecidableEq, Repr

inductive Value where
  | null
  | bool (b : Bool)
  | num (n : Number)
  /-- A string; it has no text when its escapes pair no surrogates. -/
  | str (text : Option String)
  | arr (items : List Value)
  | obj (members : List (Option String × Value))
deriving Repr, Inhabited

namespace Number

/-- The nearest double. -/
def toFloat (n : Number) : Float :=
  let magnitude :=
    if 0 ≤ n.exponent then Float.ofScientific (n.digits * Nat.pow 10 n.exponent.toNat) false 0
    else Float.ofScientific n.digits true (-n.exponent).toNat
  if n.negative then -magnitude else magnitude

/-- The digits without the last ones, as far as they do not fit in 64 bits,
with the number of digits dropped. -/
def fitting (digits : Nat) : Nat → Nat × Nat
  | 0 => (digits, 0)
  | fuel + 1 =>
    if digits < Nat.pow 2 64 then (digits, 0)
    else
      let (kept, dropped) := fitting (digits / 10) fuel
      (kept, dropped + 1)

/-- Scales by powers of ten of at most `1e308`, one after the other; a result
that overflows is refused. -/
def scaled? (x : Float) (exponent : Int) : Nat → Option Float
  | 0 => none
  | fuel + 1 =>
    let magnitude := exponent.natAbs
    if magnitude ≤ 308 then
      let power := Float.ofScientific 1 false magnitude
      if 0 ≤ exponent then
        let y := x * power
        if y.isInf then none else some y
      else some (x / power)
    else if x == 0 then some x
    else if 0 ≤ exponent then none
    else scaled? (x / 1e308) (exponent + 308) fuel

/-- A double by one multiplication or division of the leading digits, exact
for short numbers. An integer of at most 64 bits is rounded to nearest as it is. -/
def quickFloat? (n : Number) : Option Float :=
  let magnitude :=
    if n.whole && n.digits < Nat.pow 2 64 then some (Float.ofNat n.digits)
    else
      let (kept, dropped) := fitting n.digits n.digits
      scaled? (Float.ofNat kept) (n.exponent + dropped) (n.exponent.natAbs / 308 + 2)
  magnitude.map fun x => if n.negative then -x else x

/-- A natural number below `bound`, written without sign, point and exponent. -/
def toNat? (n : Number) (bound : Nat) : Option Nat :=
  if n.whole && !n.negative && n.digits < bound then some n.digits else none

end Number

namespace Value

/-- The members of an object with a name, in order. -/
def membersNamed (members : List (Option String × Value)) (name : String) : List Value :=
  (members.filter fun (k, _) => k == some name).map Prod.snd

end Value

end BranchAndCut.Json
